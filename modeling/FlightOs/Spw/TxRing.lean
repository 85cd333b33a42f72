/-
# The ring of transmit descriptors

The core keeps a pointer of its own into the table of descriptors: it sends the packet of the
descriptor it is at, if that one is enabled, and goes on to the next one, or back to the first where the
wrap bit is set.  The driver (`grspw2_add_pkt`, `grspw2_add_rmap`, `grspw2_route`) knows nothing of this
pointer.  It copies a packet into the buffers of the first free descriptor, enables it, and takes back
what is no longer enabled from the front of those in use.

* `tx_ring_in_order`: in every state of every run the core is at the first enabled descriptor of those
  in use, and the packets that have been accepted are those sent and those in the enabled descriptors,
  in the order of the calls.
* `tx_ring_sends`: what is sent is what has been given to the calls, byte for byte, if each packet fits
  the buffers of a descriptor and is clean in the one it gets.
-/
import FlightOs.Spw.TxDesc
import FlightOs.Lib.Rotation
import Mathlib.Data.List.GetD
import Mathlib.Data.UInt

namespace FlightOs

/-! ## 1. The core and the buffers -/

/-- What goes over the link. -/
structure TxWire where
  header : List UInt8
  data : List UInt8
  headerCrc : Bool
  dataCrc : Bool
  nonCrcBytes : Nat
  deriving DecidableEq, Repr

/-- What a call asks for, with the memory its buffers are in. -/
def TxPkt.wire (p : TxPkt) (mem : Nat → UInt8) : TxWire where
  header := (List.range p.hdrSize).map fun k => mem (p.hdrBuf + k)
  data := (List.range p.dataSize).map fun k => mem (p.dataBuf + k)
  headerCrc := p.rmapPkt && decide (p.hdrSize ≠ 0)
  dataCrc := p.rmapPkt && decide (p.dataSize ≠ 0)
  nonCrcBytes := if p.rmapPkt then p.nonCrcBytes else 0

/-- The transmitting side with the two areas of buffers, of `hdrSize` and `dataSize` bytes for each
descriptor, the descriptor the core is at, and the packets queued and sent, in order. -/
structure TxSys where
  tx : TxCore
  hdrSize : Nat
  dataSize : Nat
  hdrBuf : Nat → UInt8
  dataBuf : Nat → UInt8
  hwDesc : Nat
  queued : List (TxPkt × TxWire)
  sent : List (TxPkt × TxWire)

/-- `memcpy` into an area of buffers. -/
def bufCopy (buf : Nat → UInt8) (offset : Nat) (bytes : List UInt8) : Nat → UInt8 :=
  fun k => if offset ≤ k then bytes.getD (k - offset) (buf k) else buf k

/-- What a descriptor makes the core send. -/
def TxSys.wireAt (s : TxSys) (i : Nat) : TxWire where
  header := (List.range (s.tx.desc i).hdrSize).map fun k => s.hdrBuf (i * s.hdrSize + k)
  data := (List.range (s.tx.desc i).dataSize).map fun k => s.dataBuf (i * s.dataSize + k)
  headerCrc := (s.tx.desc i).appendHeaderCrc
  dataCrc := (s.tx.desc i).appendDataCrc
  nonCrcBytes := (s.tx.desc i).nonCrcBytes

/-- The packet a descriptor has been queued for, and what it will make of it. -/
def TxSys.entry (s : TxSys) (i : Nat) : TxPkt × TxWire := (s.tx.pkt i, s.wireAt i)

/-- A call, with what it returns: the descriptor that has been queued is the last one in use. -/
def TxSys.called (s : TxSys) (r : Int × TxCore) (p : TxPkt) (mem : Nat → UInt8) : TxSys :=
  if r.1 ≠ 0 then { s with tx := r.2 }
  else
    let i := r.2.txDescRingUsed.getLastD 0
    { s with
      tx := r.2
      hdrBuf := bufCopy s.hdrBuf (i * s.hdrSize) (p.wire mem).header
      dataBuf := bufCopy s.dataBuf (i * s.dataSize) (p.wire mem).data
      queued := s.queued ++ [(p, p.wire mem)] }

/-- The core sends the packet it is at, or is interrupted by an error of the link. -/
def TxSys.send (s : TxSys) (linkError : Bool) : TxSys :=
  let d := s.tx.desc s.hwDesc
  if d.enable then
    { s with
      tx := { s.tx with
        desc := Function.update s.tx.desc s.hwDesc { d with enable := false, linkError := linkError } }
      hwDesc := if d.wrap then 0 else s.hwDesc + 1
      sent := s.sent ++ [s.entry s.hwDesc] }
  else s

/-- A packet is added, or one is forwarded by `grspw2_route`, or that call ends; or the core sends. -/
inductive TxSysOp
  | add (p : TxPkt) (mem : Nat → UInt8)
  | forward (pktAddr pktSize : Nat) (mem : Nat → UInt8)
  | routeEnd
  | send (linkError : Bool)

def txSysStep (s : TxSys) : TxSysOp → TxSys
  | .add p mem => s.called (grspw2Add s.tx p) p mem
  | .forward pktAddr pktSize mem =>
    s.called (grspw2TxDescAddPkt s.tx (routedPkt pktAddr pktSize)) (routedPkt pktAddr pktSize) mem
  | .routeEnd => { s with tx := grspw2TxDescMoveFreeAll s.tx }
  | .send linkError => s.send linkError

/-- A table of one descriptor at least has been set up, and the core has been given its address. -/
def TxSys.Init (s : TxSys) : Prop :=
  ∃ tblSize, 16 ≤ tblSize ∧ s.tx = grspw2TxDescTableInit tblSize s.dataSize ∧ s.hwDesc = 0 ∧
    s.queued = [] ∧ s.sent = []

/-- The descriptors in use are some that are done and then some that are enabled; the core is at the
first of these, and what it does there is what the driver takes it to do; the packets accepted are those
sent, and those of the enabled descriptors. -/
structure TxSys.InOrder (s : TxSys) : Prop where
  rotation : (s.tx.txDescRingUsed ++ s.tx.txDescRingFree).IsRotated (List.range s.tx.txNDesc)
  order : ∃ done active, s.tx.txDescRingUsed = done ++ active ∧
    (∀ i ∈ done, (s.tx.desc i).enable = false) ∧ (∀ i ∈ active, (s.tx.desc i).enable = true) ∧
    (∀ i ∈ active.head?, i = s.hwDesc) ∧
    s.queued.map Prod.fst = s.sent.map Prod.fst ++ active.map s.tx.pkt
  completes : ∀ linkError, (s.send linkError).tx = txComplete s.tx linkError

/-- What has been asked for is what has been sent, and what the enabled descriptors will send. -/
def TxSys.Sends (s : TxSys) : Prop :=
  ∃ done active, s.tx.txDescRingUsed = done ++ active ∧ (∀ i ∈ done, (s.tx.desc i).enable = false) ∧
    (∀ i ∈ active, (s.tx.desc i).enable = true) ∧ s.queued = s.sent ++ active.map s.entry

/-- A packet fits the buffers, and is clean in the descriptor it gets. -/
structure TxSys.Fits (s : TxSys) (p : TxPkt) : Prop where
  clean : s.tx.TakesClean p
  hdrSize : p.hdrSize ≤ s.hdrSize
  dataSize : p.dataSize ≤ s.dataSize

def TxSysFits (s : TxSys) : TxSysOp → Prop
  | .add p _ => s.Fits p
  | .forward pktAddr pktSize _ => s.Fits (routedPkt pktAddr pktSize)
  | .routeEnd => True
  | .send _ => True

/-! ## 2. The buffers -/

section Buffers

variable (buf : Nat → UInt8) (bytes : List UInt8)

/-- What has been copied is read back. -/
theorem map_bufCopy (offset : Nat) :
    (List.range bytes.length).map (fun k => bufCopy buf offset bytes (offset + k)) = bytes := by
  refine List.ext_getElem (by simp) fun k hk hk' => ?_
  simp [bufCopy, hk']

variable {buf bytes} in
/-- The buffer of another descriptor is left alone. -/
theorem bufCopy_apart {size i j k : Nat} (hij : j ≠ i) (hk : k < size) (hlen : bytes.length ≤ size) :
    bufCopy buf (i * size) bytes (j * size + k) = buf (j * size + k) := by
  unfold bufCopy
  split
  · rename_i hle
    have hlt : i < j := by
      by_contra hge
      have hnext : (j + 1) * size ≤ i * size := Nat.mul_le_mul_right _ (by omega)
      rw [Nat.succ_mul] at hnext
      omega
    have hnext : (i + 1) * size ≤ j * size := Nat.mul_le_mul_right _ hlt
    rw [Nat.succ_mul] at hnext
    exact List.getD_eq_default _ _ (by omega)
  · rfl

end Buffers

/-! ## 3. The order of the ring -/

/-- Going round the table from `h` on, `u` descriptors are in use, and `f` of them are done. -/
structure TxSys.Rings (s : TxSys) (h u f : Nat) : Prop where
  head : h < s.tx.txNDesc
  done_le : f ≤ u
  used_le : u ≤ s.tx.txNDesc
  used : s.tx.txDescRingUsed = arc s.tx.txNDesc h 0 u
  free : s.tx.txDescRingFree = arc s.tx.txNDesc h u (s.tx.txNDesc - u)
  hw : s.hwDesc = circle s.tx.txNDesc h f
  enable : ∀ k < s.tx.txNDesc, (s.tx.desc (circle s.tx.txNDesc h k)).enable = decide (f ≤ k ∧ k < u)
  wrap : ∀ k, f ≤ k → k < u → circle s.tx.txNDesc h k = s.tx.txNDesc - 1 →
    (s.tx.desc (circle s.tx.txNDesc h k)).wrap = true
  last : ∀ i, (s.tx.desc i).wrap = true → i = s.tx.txNDesc - 1

/-- The enabled descriptors. -/
def TxSys.active (s : TxSys) (h u f : Nat) : List Nat := arc s.tx.txNDesc h f (u - f)

section Rings

variable {s : TxSys} {h u f : Nat}

theorem TxSys.Rings.pos (hr : s.Rings h u f) : 0 < s.tx.txNDesc := Nat.zero_lt_of_lt hr.head

theorem TxSys.active_cons (hf : f < u) :
    s.active h u f = circle s.tx.txNDesc h f :: s.active h u (f + 1) := by
  rw [TxSys.active, show u - f = u - (f + 1) + 1 by omega, arc_succ_left, TxSys.active]

theorem TxSys.active_self : s.active h u u = [] := by
  rw [TxSys.active, Nat.sub_self, arc_zero]

/-- Those in use are the done ones and the enabled ones. -/
theorem TxSys.Rings.split (hr : s.Rings h u f) :
    s.tx.txDescRingUsed = arc s.tx.txNDesc h 0 f ++ s.active h u f ∧
      (∀ i ∈ arc s.tx.txNDesc h 0 f, (s.tx.desc i).enable = false) ∧
      (∀ i ∈ s.active h u f, (s.tx.desc i).enable = true) := by
  have hle := hr.done_le
  have hused := hr.used_le
  refine ⟨?_, ?_, ?_⟩
  · have hall := arc_append (n := s.tx.txNDesc) (h := h) (j := 0) (m := f) (l := u - f)
    rw [Nat.zero_add, Nat.add_sub_cancel' hle] at hall
    rw [hr.used, TxSys.active, hall]
  · intro i hi
    obtain ⟨k, hk, rfl⟩ := mem_arc.mp hi
    rw [Nat.zero_add, hr.enable _ (by omega)]
    exact decide_eq_false (by omega)
  · intro i hi
    obtain ⟨k, hk, rfl⟩ := mem_arc.mp hi
    rw [hr.enable _ (by omega)]
    exact decide_eq_true (by omega)

/-- A descriptor is enabled at the core if any one is. -/
theorem TxSys.Rings.enable_hw (hr : s.Rings h u f) :
    (s.tx.desc s.hwDesc).enable = decide (f < u) := by
  have hle := hr.done_le
  have hused := hr.used_le
  rw [hr.hw]
  by_cases hf : f < s.tx.txNDesc
  · rw [hr.enable f hf]
    exact decide_eq_decide.mpr (by omega)
  · have hself : circle s.tx.txNDesc h f = circle s.tx.txNDesc h 0 := by
      rw [show f = s.tx.txNDesc by omega, circle_self hr.head, circle_zero hr.head]
    rw [hself, hr.enable 0 hr.pos]
    exact decide_eq_decide.mpr (by omega)

/-- **The core and the driver agree**: the first enabled one of those in use is the one the core is at. -/
theorem TxSys.Rings.completes (hr : s.Rings h u f) (linkError : Bool) :
    (s.send linkError).tx = txComplete s.tx linkError := by
  obtain ⟨hused, hdone, hactive⟩ := hr.split
  have hskip : s.tx.txDescRingUsed.find? (fun i => (s.tx.desc i).enable) =
      (s.active h u f).find? (fun i => (s.tx.desc i).enable) := by
    rw [hused, List.find?_append, List.find?_eq_none.mpr fun i hi => by simp [hdone i hi]]
    rfl
  rw [TxSys.send, txComplete, hskip, hr.enable_hw]
  by_cases hf : f < u
  · have hfirst : (s.active h u f).find? (fun i => (s.tx.desc i).enable) = some s.hwDesc := by
      rw [TxSys.active_cons hf, ← hr.hw, List.find?_cons_of_pos]
      rw [hr.enable_hw]
      exact decide_eq_true hf
    simp [hf, hfirst]
  · have hnone : s.active h u f = [] := by
      rw [Nat.le_antisymm hr.done_le (Nat.le_of_not_lt hf), TxSys.active_self]
    simp [hf, hnone]

theorem TxSys.Rings.inOrder (hr : s.Rings h u f)
    (hq : s.queued.map Prod.fst = s.sent.map Prod.fst ++ (s.active h u f).map s.tx.pkt) : s.InOrder := by
  obtain ⟨hused, hdone, hactive⟩ := hr.split
  refine ⟨?_, ⟨arc s.tx.txNDesc h 0 f, s.active h u f, hused, hdone, hactive, ?_, hq⟩, hr.completes⟩
  · have hall := arc_append (n := s.tx.txNDesc) (h := h) (j := 0) (m := u) (l := s.tx.txNDesc - u)
    rw [Nat.zero_add, Nat.add_sub_cancel' hr.used_le] at hall
    rw [hr.used, hr.free, hall]
    exact arc_isRotated
  · intro i hi
    by_cases hf : f < u
    · rw [TxSys.active_cons hf] at hi
      rw [hr.hw]
      exact (Option.some.inj hi).symm
    · rw [Nat.le_antisymm hr.done_le (Nat.le_of_not_lt hf), TxSys.active_self] at hi
      cases hi

end Rings

/-! ## 4. The steps of the driver and of the core -/

/-- The walk stops at the first enabled one. -/
theorem moveFreeAll_append {desc : Nat → TxDesc} {rest : List Nat}
    (hrest : ∀ i ∈ rest.head?, (desc i).enable = true) :
    ∀ (done free : List Nat), (∀ i ∈ done, (desc i).enable = false) →
      moveFreeAll desc free (done ++ rest) = (free ++ done, rest)
  | [], free, _ => by
    cases rest with
    | nil => simp [moveFreeAll]
    | cons i rest => simp [moveFreeAll, hrest i rfl]
  | i :: done, free, hdone => by
    obtain ⟨hi, hdone⟩ := List.forall_mem_cons.mp hdone
    rw [List.cons_append, moveFreeAll, if_neg (by simp [hi]), moveFreeAll_append hrest done _ hdone,
      List.append_assoc, List.singleton_append]

/-- A packet that is accepted is written into the first free descriptor. -/
theorem grspw2TxDescAddPkt_taken {t : TxCore} {p : TxPkt} {i : Nat} {free : List Nat}
    (hbufs : (p.hdrSize ≠ 0 → p.hdrBuf ≠ 0) ∧ (p.dataSize ≠ 0 → p.dataBuf ≠ 0))
    (hfree : (grspw2TxDescMoveFreeAll t).txDescRingFree = i :: free) :
    grspw2TxDescAddPkt t p = (0, { grspw2TxDescMoveFreeAll t with
      desc := Function.update t.desc i { txDescWrite (t.desc i) p with
        wrap := decide (i = t.txNDesc - 1) || (t.desc i).wrap, enable := true }
      txDescRingFree := free
      txDescRingUsed := (grspw2TxDescMoveFreeAll t).txDescRingUsed ++ [i]
      pkt := Function.update t.pkt i p }) := by
  have hhdr : ¬ (p.hdrSize ≠ 0 ∧ p.hdrBuf = 0) := fun h => hbufs.1 h.1 h.2
  have hdata : ¬ (p.dataSize ≠ 0 ∧ p.dataBuf = 0) := fun h => hbufs.2 h.1 h.2
  rw [grspw2TxDescAddPkt, if_neg hhdr, if_neg hdata]
  simp only [hfree]
  by_cases hlast : i = t.txNDesc - 1
  · simp [grspw2TxDescMoveFreeAll, hlast]
  · simp [grspw2TxDescMoveFreeAll, hlast, txDescWrite]

/-- The descriptors that are done go back, and nothing else changes. -/
def TxSys.collected (s : TxSys) : TxSys := { s with tx := grspw2TxDescMoveFreeAll s.tx }

section Steps

variable {s : TxSys} {h u f : Nat} {p : TxPkt} {mem : Nat → UInt8}

theorem TxSys.Rings.collect (hr : s.Rings h u f) :
    s.collected.Rings (circle s.tx.txNDesc h f) (u - f) 0 ∧
      s.collected.active (circle s.tx.txNDesc h f) (u - f) 0 = s.active h u f := by
  have hle := hr.done_le
  have hlen := hr.used_le
  obtain ⟨hused, hdone, hactive⟩ := hr.split
  have hmoved : moveFreeAll s.tx.desc s.tx.txDescRingFree s.tx.txDescRingUsed =
      (s.tx.txDescRingFree ++ arc s.tx.txNDesc h 0 f, s.active h u f) := by
    rw [hused]
    refine moveFreeAll_append (fun i hi => hactive i (List.mem_of_mem_head? hi)) _ _ hdone
  have hround : arc s.tx.txNDesc h 0 f = arc s.tx.txNDesc h s.tx.txNDesc f := by
    have hself : arc s.tx.txNDesc (circle s.tx.txNDesc h s.tx.txNDesc) 0 f = arc s.tx.txNDesc h 0 f := by
      rw [circle_self hr.head]
    rw [← hself, arc_circle, Nat.add_zero]
  refine ⟨⟨circle_lt hr.pos, Nat.zero_le _, ?_, ?_, ?_, ?_, ?_, ?_, hr.last⟩, ?_⟩
  · exact Nat.le_trans (Nat.sub_le u f) hlen
  · dsimp only [TxSys.collected, grspw2TxDescMoveFreeAll]
    rw [hmoved, arc_circle, Nat.add_zero]
    rfl
  · dsimp only [TxSys.collected, grspw2TxDescMoveFreeAll]
    have hall := arc_append (n := s.tx.txNDesc) (h := h) (j := u) (m := s.tx.txNDesc - u) (l := f)
    rw [Nat.add_sub_cancel' hlen] at hall
    rw [hmoved, hr.free, hround, hall, arc_circle, Nat.add_sub_cancel' hle,
      show s.tx.txNDesc - (u - f) = s.tx.txNDesc - u + f by omega]
  · dsimp only [TxSys.collected, grspw2TxDescMoveFreeAll]
    rw [circle_circle, Nat.add_zero]
    exact hr.hw
  · intro k hk
    dsimp only [TxSys.collected, grspw2TxDescMoveFreeAll] at hk ⊢
    rw [circle_circle]
    by_cases hround : f + k < s.tx.txNDesc
    · rw [hr.enable _ hround]
      exact decide_eq_decide.mpr (by omega)
    · -- past the end of the table come the ones that are done
      have hself : circle s.tx.txNDesc h (f + k) = circle s.tx.txNDesc h (f + k - s.tx.txNDesc) := by
        have hcirc : circle s.tx.txNDesc h (s.tx.txNDesc + (f + k - s.tx.txNDesc)) =
            circle s.tx.txNDesc h (f + k - s.tx.txNDesc) := by
          rw [← circle_circle, circle_self hr.head]
        rw [← hcirc]
        exact congrArg _ (by omega)
      rw [hself, hr.enable _ (by omega)]
      exact decide_eq_decide.mpr (by omega)
  · intro k _ hk hlast
    dsimp only [TxSys.collected, grspw2TxDescMoveFreeAll] at hlast ⊢
    rw [circle_circle] at hlast ⊢
    exact hr.wrap _ (by omega) (by omega) hlast
  · rw [TxSys.active, TxSys.active, Nat.sub_zero]
    dsimp only [TxSys.collected, grspw2TxDescMoveFreeAll]
    rw [arc_circle, Nat.add_zero]

/-- A packet is put into a descriptor, behind those in use. -/
def TxSys.put (s : TxSys) (i : Nat) (p : TxPkt) (mem : Nat → UInt8) : TxSys :=
  { s with
    tx := { s.tx with
      desc := Function.update s.tx.desc i { txDescWrite (s.tx.desc i) p with
        wrap := decide (i = s.tx.txNDesc - 1) || (s.tx.desc i).wrap, enable := true }
      txDescRingFree := s.tx.txDescRingFree.tail
      txDescRingUsed := s.tx.txDescRingUsed ++ [i]
      pkt := Function.update s.tx.pkt i p }
    hdrBuf := bufCopy s.hdrBuf (i * s.hdrSize) (p.wire mem).header
    dataBuf := bufCopy s.dataBuf (i * s.dataSize) (p.wire mem).data
    queued := s.queued ++ [(p, p.wire mem)] }

/-- **What a call can do.** -/
theorem TxSys.called_cases (s : TxSys) (p : TxPkt) (mem : Nat → UInt8) :
    s.called (grspw2TxDescAddPkt s.tx p) p mem = s ∨
      s.called (grspw2TxDescAddPkt s.tx p) p mem = s.collected ∨
      ∃ i free, ((p.hdrSize ≠ 0 → p.hdrBuf ≠ 0) ∧ (p.dataSize ≠ 0 → p.dataBuf ≠ 0)) ∧
        s.collected.tx.txDescRingFree = i :: free ∧
        s.called (grspw2TxDescAddPkt s.tx p) p mem = s.collected.put i p mem := by
  rcases grspw2TxDescAddPkt_cases s.tx p with ⟨heq, -⟩ | ⟨hbufs, ⟨-, heq⟩ | ⟨i, free, -, hfree, -⟩⟩
  · refine .inl ?_
    rw [heq]
    simp [TxSys.called]
  · refine .inr (.inl ?_)
    rw [heq]
    simp [TxSys.called, TxSys.collected]
  · refine .inr (.inr ⟨i, free, hbufs, hfree, ?_⟩)
    have htail : free = (grspw2TxDescMoveFreeAll s.tx).txDescRingFree.tail := by
      rw [hfree, List.tail_cons]
    rw [grspw2TxDescAddPkt_taken hbufs hfree, htail, TxSys.called, if_neg (not_not.mpr rfl)]
    simp only [List.getLastD_concat]
    rfl

theorem TxSys.Rings.put (hr : s.Rings h u 0) (hu : u < s.tx.txNDesc) :
    (s.put (circle s.tx.txNDesc h u) p mem).Rings h (u + 1) 0 := by
  have hother : ∀ {k}, k < s.tx.txNDesc → k ≠ u → circle s.tx.txNDesc h k ≠ circle s.tx.txNDesc h u :=
    fun hk hku heq => hku ((circle_inj hk hu).mp heq)
  refine ⟨hr.head, Nat.zero_le _, hu, ?_, ?_, hr.hw, ?_, ?_, ?_⟩
  · dsimp only [TxSys.put]
    rw [hr.used, arc_succ_right, Nat.zero_add]
  · dsimp only [TxSys.put]
    rw [hr.free, show s.tx.txNDesc - u = s.tx.txNDesc - (u + 1) + 1 by omega, arc_succ_left,
      List.tail_cons]
  · intro k hk
    dsimp only [TxSys.put] at hk ⊢
    by_cases hku : k = u
    · rw [hku, Function.update_self]
      exact (decide_eq_true ⟨Nat.zero_le _, Nat.lt_succ_self u⟩).symm
    · rw [Function.update_of_ne (hother hk hku), hr.enable k hk]
      exact decide_eq_decide.mpr (by omega)
  · intro k hk hku hlast
    dsimp only [TxSys.put] at hlast ⊢
    by_cases hlastk : k = u
    · rw [hlastk] at hlast ⊢
      rw [Function.update_self]
      simp [hlast]
    · rw [Function.update_of_ne (hother (by omega) hlastk)]
      exact hr.wrap k hk (by omega) hlast
  · intro i hi
    dsimp only [TxSys.put] at hi ⊢
    by_cases hiu : i = circle s.tx.txNDesc h u
    · rw [hiu, Function.update_self] at hi
      rcases Bool.or_eq_true_iff.mp hi with hi | hi
      · rw [hiu]
        exact of_decide_eq_true hi
      · rw [hiu]
        exact hr.last _ hi
    · rw [Function.update_of_ne hiu] at hi
      exact hr.last i hi

/-- The new one is behind those that are enabled, and is none of them. -/
theorem TxSys.active_put (p : TxPkt) (mem : Nat → UInt8) (hu : u < s.tx.txNDesc) :
    (s.put (circle s.tx.txNDesc h u) p mem).active h (u + 1) 0 =
        s.active h u 0 ++ [circle s.tx.txNDesc h u] ∧
      circle s.tx.txNDesc h u ∉ s.active h u 0 := by
  refine ⟨?_, fun hmem => ?_⟩
  · rw [TxSys.active, TxSys.active, Nat.sub_zero, Nat.sub_zero, arc_succ_right, Nat.zero_add]
    rfl
  · obtain ⟨k, hk, heq⟩ := mem_arc.mp hmem
    have := (circle_inj (by omega) hu).mp heq
    omega

/-- The first free one is the one after those in use. -/
theorem TxSys.Rings.first_free (hr : s.Rings h u f) {i : Nat} {free : List Nat}
    (hfree : s.tx.txDescRingFree = i :: free) : u < s.tx.txNDesc ∧ i = circle s.tx.txNDesc h u := by
  rw [hr.free] at hfree
  cases hroom : s.tx.txNDesc - u with
  | zero =>
    rw [hroom, arc_zero] at hfree
    cases hfree
  | succ m =>
    rw [hroom, arc_succ_left] at hfree
    exact ⟨by omega, (List.cons.inj hfree).1.symm⟩

/-- **The core goes one descriptor further**, or waits. -/
theorem TxSys.Rings.send (hr : s.Rings h u f) (linkError : Bool) :
    (f = u ∧ s.send linkError = s) ∨
      (f < u ∧ (s.send linkError).Rings h u (f + 1) ∧
        (s.send linkError).sent = s.sent ++ [s.entry s.hwDesc]) := by
  have hle := hr.done_le
  have hlen := hr.used_le
  by_cases hf : f < u
  · have hon : (s.tx.desc s.hwDesc).enable = true := by
      rw [hr.enable_hw]
      exact decide_eq_true hf
    have hother : ∀ {k}, k < s.tx.txNDesc → k ≠ f → circle s.tx.txNDesc h k ≠ s.hwDesc := by
      intro k hk hkf heq
      rw [hr.hw] at heq
      exact hkf ((circle_inj hk (by omega)).mp heq)
    have hsend : s.send linkError = { s with
        tx := { s.tx with
          desc := Function.update s.tx.desc s.hwDesc
            { s.tx.desc s.hwDesc with enable := false, linkError := linkError } }
        hwDesc := if (s.tx.desc s.hwDesc).wrap then 0 else s.hwDesc + 1
        sent := s.sent ++ [s.entry s.hwDesc] } := by
      rw [TxSys.send, if_pos hon]
    rw [hsend]
    refine .inr ⟨hf, ⟨hr.head, hf, hlen, hr.used, hr.free, ?_, ?_, ?_, ?_⟩, rfl⟩
    · -- the wrap bit is set on the last one of the table, and on no other
      dsimp only
      have hlt : s.hwDesc < s.tx.txNDesc := by
        rw [hr.hw]
        exact circle_lt hr.pos
      have hnext : circle s.tx.txNDesc h (f + 1) = (s.hwDesc + 1) % s.tx.txNDesc := by
        rw [← circle_circle, circle, hr.hw]
      rw [hnext]
      by_cases hlast : s.hwDesc = s.tx.txNDesc - 1
      · have hwrap : (s.tx.desc s.hwDesc).wrap = true := by
          rw [hr.hw] at hlast ⊢
          exact hr.wrap f (Nat.le_refl f) hf hlast
        rw [if_pos hwrap, hlast, Nat.sub_add_cancel hr.pos, Nat.mod_self]
      · rw [if_neg fun hwrap => hlast (hr.last _ hwrap)]
        exact (Nat.mod_eq_of_lt (by omega)).symm
    · intro k hk
      dsimp only
      by_cases hkf : k = f
      · rw [hkf, ← hr.hw, Function.update_self]
        exact (decide_eq_false (by omega)).symm
      · rw [Function.update_of_ne (hother hk hkf), hr.enable k hk]
        exact decide_eq_decide.mpr (by omega)
    · intro k hk hku hlast
      dsimp only
      rw [Function.update_of_ne (hother (by omega) (by omega))]
      exact hr.wrap k (by omega) hku hlast
    · intro i hi
      dsimp only at hi
      by_cases hih : i = s.hwDesc
      · rw [hih, Function.update_self] at hi
        rw [hih]
        exact hr.last _ hi
      · rw [Function.update_of_ne hih] at hi
        exact hr.last i hi
  · refine .inl ⟨Nat.le_antisymm hle (Nat.le_of_not_lt hf), ?_⟩
    rw [TxSys.send, hr.enable_hw, decide_eq_false hf]
    rfl

end Steps

/-! ## 5. Runs -/

/-- The invariant: the packets accepted are those sent, and those of the enabled descriptors.  In the
runs where every packet fits, `whole`, the bytes are those of the calls, too. -/
structure TxSys.Fifo (whole : Prop) (s : TxSys) (h u f : Nat) : Prop where
  rings : s.Rings h u f
  queued : s.queued.map Prod.fst = s.sent.map Prod.fst ++ (s.active h u f).map s.tx.pkt
  wires : whole → s.queued = s.sent ++ (s.active h u f).map s.entry
  fits : whole → ∀ i ∈ s.active h u f,
    (s.tx.desc i).hdrSize ≤ s.hdrSize ∧ (s.tx.desc i).dataSize ≤ s.dataSize

section Runs

variable {whole : Prop} {s : TxSys} {h u f : Nat} {p : TxPkt}

theorem TxSys.Fifo.collect (hi : s.Fifo whole h u f) :
    s.collected.Fifo whole (circle s.tx.txNDesc h f) (u - f) 0 := by
  obtain ⟨hrings, hactive⟩ := hi.rings.collect
  refine ⟨hrings, ?_, ?_, ?_⟩
  · rw [hactive]
    exact hi.queued
  · rw [hactive]
    exact hi.wires
  · rw [hactive]
    exact hi.fits

theorem TxPkt.length_header (p : TxPkt) (mem : Nat → UInt8) : (p.wire mem).header.length = p.hdrSize := by
  rw [TxPkt.wire, List.length_map, List.length_range]

theorem TxPkt.length_data (p : TxPkt) (mem : Nat → UInt8) : (p.wire mem).data.length = p.dataSize := by
  rw [TxPkt.wire, List.length_map, List.length_range]

/-- The descriptor makes the core send what the call asks for, if the packet is clean in it. -/
theorem TxSys.wireAt_put {i : Nat} (mem : Nat → UInt8) (hclean : (s.tx.desc i).Clean p) :
    (s.put i p mem).wireAt i = p.wire mem := by
  have hd : ((s.put i p mem).tx.desc i).Describes p := by
    dsimp only [TxSys.put]
    rw [Function.update_self]
    exact (TxDesc.describes_flags (txDescWrite (s.tx.desc i) p) _ _ true).mpr
      (describes_txDescWrite_iff.mpr hclean)
  have hheader := map_bufCopy s.hdrBuf (p.wire mem).header (i * s.hdrSize)
  have hdata := map_bufCopy s.dataBuf (p.wire mem).data (i * s.dataSize)
  rw [TxPkt.length_header] at hheader
  rw [TxPkt.length_data] at hdata
  rw [TxSys.wireAt, hd.hdrSize, hd.dataSize, hd.appendHeaderCrc, hd.appendDataCrc, hd.nonCrcBytes]
  simp only [TxSys.put, hheader, hdata]
  rfl

/-- The other descriptors send what they would have sent. -/
theorem TxSys.entry_put {i j : Nat} (mem : Nat → UInt8) (hij : j ≠ i) (hhdr : p.hdrSize ≤ s.hdrSize)
    (hdata : p.dataSize ≤ s.dataSize) (hj : (s.tx.desc j).hdrSize ≤ s.hdrSize)
    (hj' : (s.tx.desc j).dataSize ≤ s.dataSize) : (s.put i p mem).entry j = s.entry j := by
  have hdesc : (s.put i p mem).tx.desc j = s.tx.desc j := Function.update_of_ne hij _ _
  have hpkt : (s.put i p mem).tx.pkt j = s.tx.pkt j := Function.update_of_ne hij _ _
  have hheader : ∀ k ∈ List.range (s.tx.desc j).hdrSize,
      (s.put i p mem).hdrBuf (j * s.hdrSize + k) = s.hdrBuf (j * s.hdrSize + k) := by
    intro k hk
    have hlen := TxPkt.length_header p mem
    exact bufCopy_apart hij (Nat.lt_of_lt_of_le (List.mem_range.mp hk) hj) (by omega)
  have hbytes : ∀ k ∈ List.range (s.tx.desc j).dataSize,
      (s.put i p mem).dataBuf (j * s.dataSize + k) = s.dataBuf (j * s.dataSize + k) := by
    intro k hk
    have hlen := TxPkt.length_data p mem
    exact bufCopy_apart hij (Nat.lt_of_lt_of_le (List.mem_range.mp hk) hj') (by omega)
  rw [TxSys.entry, TxSys.entry, TxSys.wireAt, TxSys.wireAt, hdesc, hpkt]
  rw [← List.map_congr_left hheader, ← List.map_congr_left hbytes]
  rfl

/-- **A packet is queued**: it is the last one to be sent. -/
theorem TxSys.Fifo.put (hi : s.Fifo whole h u 0) (mem : Nat → UInt8) (hu : u < s.tx.txNDesc)
    (hfit : whole → (s.tx.desc (circle s.tx.txNDesc h u)).Clean p ∧ p.hdrSize ≤ s.hdrSize ∧
      p.dataSize ≤ s.dataSize) :
    (s.put (circle s.tx.txNDesc h u) p mem).Fifo whole h (u + 1) 0 := by
  obtain ⟨hactive, hfresh⟩ := TxSys.active_put (h := h) p mem hu
  have hother : ∀ i ∈ s.active h u 0, i ≠ circle s.tx.txNDesc h u :=
    fun i hmem heq => hfresh (heq ▸ hmem)
  refine ⟨hi.rings.put hu, ?_, fun hw => ?_, fun hw i hmem => ?_⟩
  · have hold : (s.active h u 0).map (s.put (circle s.tx.txNDesc h u) p mem).tx.pkt =
        (s.active h u 0).map s.tx.pkt :=
      List.map_congr_left fun i hmem => Function.update_of_ne (hother i hmem) _ _
    rw [hactive, List.map_append, hold, List.map_singleton]
    dsimp only [TxSys.put]
    rw [Function.update_self, List.map_append, hi.queued, List.map_singleton, List.append_assoc]
  · obtain ⟨hclean, hhdr, hdata⟩ := hfit hw
    have hold : (s.active h u 0).map (s.put (circle s.tx.txNDesc h u) p mem).entry =
        (s.active h u 0).map s.entry := by
      refine List.map_congr_left fun i hmem => ?_
      obtain ⟨hsize, hsize'⟩ := hi.fits hw i hmem
      exact TxSys.entry_put mem (hother i hmem) hhdr hdata hsize hsize'
    have hnew : (s.put (circle s.tx.txNDesc h u) p mem).entry (circle s.tx.txNDesc h u) =
        (p, p.wire mem) := by
      rw [TxSys.entry, TxSys.wireAt_put mem hclean]
      dsimp only [TxSys.put]
      rw [Function.update_self]
    have hsent : (s.put (circle s.tx.txNDesc h u) p mem).sent = s.sent := rfl
    rw [hactive, List.map_append, hold, List.map_singleton, hnew, ← List.append_assoc, hsent, ← hi.wires hw]
    rfl
  · obtain ⟨hclean, hhdr, hdata⟩ := hfit hw
    rw [hactive] at hmem
    rcases List.mem_append.mp hmem with hmem | hmem
    · dsimp only [TxSys.put]
      rw [Function.update_of_ne (hother i hmem)]
      exact hi.fits hw i hmem
    · rw [List.mem_singleton.mp hmem]
      dsimp only [TxSys.put]
      rw [Function.update_self]
      dsimp only [txDescWrite]
      exact ⟨Nat.le_trans (Nat.mod_le _ _) hhdr, Nat.le_trans (Nat.mod_le _ _) hdata⟩

/-- **A call** keeps the order. -/
theorem TxSys.Fifo.called (hi : s.Fifo whole h u f) (mem : Nat → UInt8) (hfit : whole → s.Fits p) :
    ∃ h u f, (s.called (grspw2TxDescAddPkt s.tx p) p mem).Fifo whole h u f := by
  rcases s.called_cases p mem with heq | heq | ⟨i, free, hbufs, hfree, heq⟩
  · rw [heq]
    exact ⟨h, u, f, hi⟩
  · rw [heq]
    exact ⟨_, _, _, hi.collect⟩
  · obtain ⟨hroom, rfl⟩ := hi.collect.rings.first_free hfree
    rw [heq]
    refine ⟨_, _, _, hi.collect.put mem hroom fun hw => ?_⟩
    obtain ⟨hclean, hhdr, hdata⟩ := hfit hw
    refine ⟨hclean hbufs.1 hbufs.2 _ ?_, hhdr, hdata⟩
    rw [show (grspw2TxDescMoveFreeAll s.tx).txDescRingFree = _ from hfree]
    rfl

/-- The bytes counted. -/
def TxSys.counted (s : TxSys) (txBytes : Nat) : TxSys := { s with tx := { s.tx with txBytes := txBytes } }

theorem TxSys.called_add (s : TxSys) (p : TxPkt) (mem : Nat → UInt8) :
    ∃ b, s.called (grspw2Add s.tx p) p mem =
      (s.called (grspw2TxDescAddPkt s.tx p) p mem).counted b := by
  unfold TxSys.called grspw2Add
  by_cases hret : (grspw2TxDescAddPkt s.tx p).1 ≠ 0
  · refine ⟨(grspw2TxDescAddPkt s.tx p).2.txBytes, ?_⟩
    simp [hret, TxSys.counted]
  · refine ⟨wadd (grspw2TxDescAddPkt s.tx p).2.txBytes (wadd p.hdrSize p.dataSize), ?_⟩
    simp [hret, TxSys.counted]

theorem TxSys.Fifo.count (hi : s.Fifo whole h u f) (b : Nat) : (s.counted b).Fifo whole h u f := by
  obtain ⟨hr, hq, hw, hf⟩ := hi
  exact ⟨⟨hr.head, hr.done_le, hr.used_le, hr.used, hr.free, hr.hw, hr.enable, hr.wrap, hr.last⟩, hq, hw,
    hf⟩

theorem TxSys.Fifo.send (hi : s.Fifo whole h u f) (linkError : Bool) :
    (f = u ∧ s.send linkError = s) ∨ (f < u ∧ (s.send linkError).Fifo whole h u (f + 1)) := by
  rcases hi.rings.send linkError with hnone | ⟨hf, hrings, hsent⟩
  · exact .inl hnone
  · have hon : (s.tx.desc s.hwDesc).enable = true := by
      rw [hi.rings.enable_hw]
      exact decide_eq_true hf
    have hhw : s.active h u f = s.hwDesc :: s.active h u (f + 1) := by
      rw [TxSys.active_cons hf, hi.rings.hw]
    have hactive : (s.send linkError).active h u (f + 1) = s.active h u (f + 1) := by
      rw [TxSys.send, if_pos hon]
      rfl
    have hqueued : (s.send linkError).queued = s.queued := by
      rw [TxSys.send, if_pos hon]
    have hdesc : ∀ i, ((s.send linkError).tx.desc i).hdrSize = (s.tx.desc i).hdrSize ∧
        ((s.send linkError).tx.desc i).dataSize = (s.tx.desc i).dataSize ∧
        (s.send linkError).entry i = s.entry i := by
      intro i
      unfold TxSys.send TxSys.entry TxSys.wireAt
      rw [if_pos hon]
      by_cases hih : i = s.hwDesc
      · rw [hih]
        simp
      · simp [Function.update_of_ne hih]
    have hpkt : (s.send linkError).tx.pkt = s.tx.pkt := by
      rw [TxSys.send, if_pos hon]
    refine .inr ⟨hf, hrings, ?_, fun hw => ?_, fun hw i hmem => ?_⟩
    · rw [hactive, hqueued, hsent, hi.queued, hhw, List.map_cons, List.map_append, hpkt,
        List.append_assoc]
      rfl
    · rw [hactive, hqueued, hsent, hi.wires hw, hhw, List.map_cons,
        List.map_congr_left fun i _ => (hdesc i).2.2, List.append_assoc]
      rfl
    · rw [hactive] at hmem
      rw [(hdesc i).1, (hdesc i).2.1, show (s.send linkError).hdrSize = s.hdrSize by
        rw [TxSys.send, if_pos hon], show (s.send linkError).dataSize = s.dataSize by
        rw [TxSys.send, if_pos hon]]
      exact hi.fits hw i (hhw ▸ List.mem_cons_of_mem _ hmem)

/-- **Each step** keeps the order of the ring. -/
theorem TxSys.Fifo.step (hi : s.Fifo whole h u f) (o : TxSysOp) (hok : whole → TxSysFits s o) :
    ∃ h u f, (txSysStep s o).Fifo whole h u f := by
  cases o with
  | add p mem =>
    obtain ⟨b, heq⟩ := s.called_add p mem
    obtain ⟨h', u', f', hi'⟩ := hi.called mem hok
    refine ⟨h', u', f', ?_⟩
    rw [txSysStep, heq]
    exact hi'.count b
  | forward pktAddr pktSize mem => exact hi.called mem hok
  | routeEnd => exact ⟨_, _, _, hi.collect⟩
  | send linkError =>
    rcases hi.send linkError with ⟨-, heq⟩ | ⟨-, hsent⟩
    · rw [txSysStep, heq]
      exact ⟨h, u, f, hi⟩
    · exact ⟨h, u, f + 1, hsent⟩

theorem TxSys.Init.fifo (hs : s.Init) : s.Fifo whole 0 0 0 := by
  obtain ⟨tblSize, htbl, htx, hhw, hqueued, hsent⟩ := hs
  have hpos : 0 < min (tblSize / 16) grspw2TxDescriptors := by
    rw [grspw2TxDescriptors]
    omega
  have hnone : s.active 0 0 0 = [] := TxSys.active_self
  refine ⟨?_, ?_, fun _ => ?_, fun _ i hi => ?_⟩
  · constructor
    · rw [htx]
      exact hpos
    · exact Nat.le_refl 0
    · exact Nat.zero_le _
    · rw [htx]
      rfl
    · rw [htx]
      dsimp only [grspw2TxDescTableInit]
      rw [Nat.sub_zero, arc_eq_rotate, List.rotate_zero]
    · rw [hhw, htx]
      exact (circle_zero hpos).symm
    · intro k _
      rw [htx]
      exact (decide_eq_false (by omega)).symm
    · intro k _ hk
      exact absurd hk (Nat.not_lt_zero k)
    · intro i hi
      rw [htx] at hi
      cases hi
  · rw [hnone, hqueued, hsent]
    rfl
  · rw [hnone, hqueued, hsent]
    rfl
  · rw [hnone] at hi
    cases hi

end Runs

/-- **Transmission is in order.**  In every state of every run the core is at the first enabled one of
the descriptors in use, and the packets that have been accepted are those sent, and those waiting. -/
theorem tx_ring_in_order {s : TxSys} (hs : s.Init) (ops : List TxSysOp) :
    Along txSysStep TxSys.InOrder s ops := by
  refine Along.mono (I := fun s => ∃ h u f, s.Fifo False h u f) ?_ (Along.invariant ?_ ops ⟨0, 0, 0, hs.fifo⟩)
  · rintro s ⟨h, u, f, hi⟩
    exact hi.rings.inOrder hi.queued
  · rintro s o ⟨h, u, f, hi⟩
    exact hi.step o False.elim

/-- A table of two descriptors, with buffers of eight bytes and of sixteen. -/
def txSample : TxSys where
  tx := grspw2TxDescTableInit 32 16
  hdrSize := 8
  dataSize := 16
  hdrBuf := fun _ => 0
  dataBuf := fun _ => 0
  hwDesc := 0
  queued := []
  sent := []

theorem txSample_init : txSample.Init := ⟨32, by decide, rfl, rfl, rfl, rfl⟩

/-- Two packets are added, one is sent, and a third one is added behind the other. -/
def txSampleOps : List TxSysOp :=
  [.add ⟨false, 4096, 4, 0, 4200, 12⟩ fun a => UInt8.ofNat a, .forward 8192 16 fun a => UInt8.ofNat (a / 2),
    .send false, .add ⟨true, 4096, 8, 4, 0, 0⟩ fun _ => 7]

theorem tx_ring_in_order_sample : Along txSysStep TxSys.InOrder txSample txSampleOps :=
  tx_ring_in_order txSample_init txSampleOps

/-- **What is sent is what has been asked for**, in every state of a run whose packets fit the buffers,
and are clean in their descriptors. -/
theorem tx_ring_sends {s : TxSys} (hs : s.Init) {ops : List TxSysOp}
    (hok : StepsMeet txSysStep TxSysFits s ops) : Along txSysStep TxSys.Sends s ops := by
  refine Along.mono (I := fun s => ∃ h u f, s.Fifo True h u f) ?_
    (StepsMeet.along ?_ ops ⟨0, 0, 0, hs.fifo⟩ hok)
  · rintro s ⟨h, u, f, hi⟩
    obtain ⟨hused, hdone, hactive⟩ := hi.rings.split
    exact ⟨_, _, hused, hdone, hactive, hi.wires trivial⟩
  · rintro s o ⟨h, u, f, hi⟩ ho
    exact hi.step o fun _ => ho

theorem tx_ring_sends_sample :
    Along txSysStep TxSys.Sends txSample
      [.add ⟨false, 4096, 4, 0, 4200, 12⟩ fun a => UInt8.ofNat a, .send false] := by
  refine tx_ring_sends txSample_init ⟨⟨fun _ _ i _ => ?_, by decide, by decide⟩, trivial, trivial⟩
  exact ⟨by decide, by decide, fun h => absurd h Bool.false_ne_true, fun h => absurd h Bool.false_ne_true,
    fun h => absurd h Bool.false_ne_true, fun h => absurd rfl h⟩

end FlightOs
