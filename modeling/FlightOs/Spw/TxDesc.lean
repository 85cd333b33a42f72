/-
# Transmit descriptors

A SpaceWire core (`kernel/grspw2.c`) sends the packets of a ring of descriptors.  A packet is queued
in the first free descriptor, which is enabled and moved to the ring of those in use; the core
completes the descriptors in order and clears their enable bits, and the next call takes them back.
Nothing else in a descriptor is cleared between two packets.

`tx_desc_current_iff`: every descriptor in use describes the packet it has been queued for, in every
state of a run, if and only if each packet fits the fields of its descriptor, and sets itself what an
earlier packet has left set there.  The bits for the CRCs and the count of bytes without are written
for RMAP packets only, and only where they are not zero.
-/
import FlightOs.Lib.Word
import FlightOs.Lib.System
import Mathlib.Data.List.Perm.Basic
import Mathlib.Logic.Function.Basic
import Mathlib.Tactic.Common

namespace FlightOs

/-! ## 1. The descriptors and their rings -/

/-- `struct grspw2_tx_desc`, without its addresses, which stay as they are. -/
structure TxDesc where
  appendDataCrc : Bool
  appendHeaderCrc : Bool
  linkError : Bool
  interruptEnable : Bool
  wrap : Bool
  enable : Bool
  nonCrcBytes : Nat
  hdrSize : Nat
  dataSize : Nat
  deriving DecidableEq, Repr

/-- A packet as it is given to `grspw2_tx_desc_add_pkt`; the buffer 0 is the null pointer. -/
structure TxPkt where
  rmapPkt : Bool
  hdrBuf : Nat
  hdrSize : Nat
  nonCrcBytes : Nat
  dataBuf : Nat
  dataSize : Nat
  deriving DecidableEq, Repr

/-- The transmitting side of `struct grspw2_core_cfg`: the table, of `txNDesc` descriptors, the rings
of the free and of the used ones, and the bytes counted; with the packet each descriptor has last been
queued for. -/
structure TxCore where
  txNDesc : Nat
  desc : Nat → TxDesc
  txDescRingFree : List Nat
  txDescRingUsed : List Nat
  txBytes : Nat
  pkt : Nat → TxPkt

def grspw2TxDescriptors : Nat := 64

/-- `grspw2_tx_desc_table_init`: clearing the control word clears the header size, too. -/
def grspw2TxDescTableInit (tblSize dataSize : Nat) : TxCore where
  txNDesc := min (tblSize / 16) grspw2TxDescriptors
  desc := fun _ => ⟨false, false, false, false, false, false, 0, 0, dataSize % 2 ^ 24⟩
  txDescRingFree := List.range (min (tblSize / 16) grspw2TxDescriptors)
  txDescRingUsed := []
  txBytes := 0
  pkt := fun _ => ⟨false, 0, 0, 0, 0, 0⟩

/-- The loop of `grspw2_tx_desc_move_free_all`: the free ring and the used one after it. -/
def moveFreeAll (desc : Nat → TxDesc) : List Nat → List Nat → List Nat × List Nat
  | free, [] => (free, [])
  | free, i :: used =>
    if (desc i).enable then (free, i :: used) else moveFreeAll desc (free ++ [i]) used

def grspw2TxDescMoveFreeAll (s : TxCore) : TxCore :=
  let rings := moveFreeAll s.desc s.txDescRingFree s.txDescRingUsed
  { s with txDescRingFree := rings.1, txDescRingUsed := rings.2 }

/-- What `grspw2_tx_desc_add_pkt` writes into the descriptor, but for the wrap and the enable bit: the
fields after the sizes are written for an RMAP packet that has something to put there. -/
def txDescWrite (d : TxDesc) (p : TxPkt) : TxDesc :=
  { d with
    hdrSize := p.hdrSize % 2 ^ 8
    dataSize := p.dataSize % 2 ^ 24
    appendHeaderCrc := if p.rmapPkt = true ∧ p.hdrSize ≠ 0 then true else d.appendHeaderCrc
    appendDataCrc := if p.rmapPkt = true ∧ p.dataSize ≠ 0 then true else d.appendDataCrc
    nonCrcBytes := if p.rmapPkt = true ∧ p.nonCrcBytes ≠ 0 then p.nonCrcBytes % 16 else d.nonCrcBytes }

def grspw2TxDescAddPkt (s : TxCore) (p : TxPkt) : Int × TxCore :=
  if p.hdrSize ≠ 0 ∧ p.hdrBuf = 0 then (-1, s)
  else if p.dataSize ≠ 0 ∧ p.dataBuf = 0 then (-1, s)
  else
    let s := grspw2TxDescMoveFreeAll s
    match s.txDescRingFree with
    | [] => (-1, s)
    | i :: free =>
      let d := txDescWrite (s.desc i) p
      -- the wrap bit is set on the last one of the table
      let d := if i = s.txNDesc - 1 then { d with wrap := true } else d
      (0, { s with
        desc := Function.update s.desc i { d with enable := true }
        txDescRingFree := free
        txDescRingUsed := s.txDescRingUsed ++ [i]
        pkt := Function.update s.pkt i p })

/-- `grspw2_add_pkt` and `grspw2_add_rmap` -/
def grspw2Add (s : TxCore) (p : TxPkt) : Int × TxCore :=
  let r := grspw2TxDescAddPkt s p
  if r.1 ≠ 0 then (-1, r.2)
  else (0, { r.2 with txBytes := wadd r.2.txBytes (wadd p.hdrSize p.dataSize) })

def grspw2AddPkt (s : TxCore) (hdr hdrSize data dataSize : Nat) : Int × TxCore :=
  grspw2Add s ⟨false, hdr, hdrSize, 0, data, dataSize⟩

def grspw2AddRmap (s : TxCore) (hdr hdrSize nonCrcBytes data dataSize : Nat) : Int × TxCore :=
  grspw2Add s ⟨true, hdr, hdrSize, nonCrcBytes, data, dataSize⟩

/-- The packet that `grspw2_route` makes of a received one. -/
def routedPkt (pktAddr pktSize : Nat) : TxPkt := ⟨false, 0, 0, 0, pktAddr, pktSize⟩

/-- `grspw2_route`, on the core it sends on: the packets received are queued as long as there are
descriptors, and then those in use are looked at once more. -/
def grspw2Route : TxCore → List (Nat × Nat) → TxCore
  | s, [] => grspw2TxDescMoveFreeAll s
  | s, (pktAddr, pktSize) :: received =>
    let r := grspw2TxDescAddPkt s (routedPkt pktAddr pktSize)
    if r.1 ≠ 0 then grspw2TxDescMoveFreeAll r.2 else grspw2Route r.2 received

/-- The core completes the first enabled descriptor of those in use. -/
def txComplete (s : TxCore) (linkError : Bool) : TxCore :=
  match s.txDescRingUsed.find? fun i => (s.desc i).enable with
  | none => s
  | some i =>
    { s with
      desc := Function.update s.desc i { s.desc i with enable := false, linkError := linkError } }

/-! ## 2. Runs -/

/-- A packet is queued by a call, or those received by another core are, or a packet has been sent. -/
inductive TxOp
  | addPkt (hdr hdrSize data dataSize : Nat)
  | addRmap (hdr hdrSize nonCrcBytes data dataSize : Nat)
  | route (received : List (Nat × Nat))
  | complete (linkError : Bool)
  deriving DecidableEq, Repr

def txStep (s : TxCore) : TxOp → TxCore
  | .addPkt hdr hdrSize data dataSize => (grspw2AddPkt s hdr hdrSize data dataSize).2
  | .addRmap hdr hdrSize nonCrcBytes data dataSize =>
    (grspw2AddRmap s hdr hdrSize nonCrcBytes data dataSize).2
  | .route received => grspw2Route s received
  | .complete linkError => txComplete s linkError

/-- A descriptor describes a packet: the sizes are its own, and the CRCs and the bytes without are
those of an RMAP packet, or none. -/
structure TxDesc.Describes (d : TxDesc) (p : TxPkt) : Prop where
  hdrSize : d.hdrSize = p.hdrSize
  dataSize : d.dataSize = p.dataSize
  appendHeaderCrc : d.appendHeaderCrc = (p.rmapPkt && decide (p.hdrSize ≠ 0))
  appendDataCrc : d.appendDataCrc = (p.rmapPkt && decide (p.dataSize ≠ 0))
  nonCrcBytes : d.nonCrcBytes = if p.rmapPkt then p.nonCrcBytes else 0

/-- Every descriptor in use describes the packet it has been queued for. -/
def TxCore.Current (s : TxCore) : Prop := ∀ i ∈ s.txDescRingUsed, (s.desc i).Describes (s.pkt i)

/-- The packet fits the fields of the descriptor, and writes itself what an earlier one has left set. -/
structure TxDesc.Clean (d : TxDesc) (p : TxPkt) : Prop where
  hdrSize : p.hdrSize < 2 ^ 8
  dataSize : p.dataSize < 2 ^ 24
  nonCrc : p.rmapPkt = true → p.nonCrcBytes < 16
  appendHeaderCrc : d.appendHeaderCrc = true → p.rmapPkt = true ∧ p.hdrSize ≠ 0
  appendDataCrc : d.appendDataCrc = true → p.rmapPkt = true ∧ p.dataSize ≠ 0
  nonCrcBytes : d.nonCrcBytes ≠ 0 → p.rmapPkt = true ∧ p.nonCrcBytes ≠ 0

/-- The packet is refused, or clean in the descriptor it gets. -/
def TxCore.TakesClean (s : TxCore) (p : TxPkt) : Prop :=
  (p.hdrSize ≠ 0 → p.hdrBuf ≠ 0) → (p.dataSize ≠ 0 → p.dataBuf ≠ 0) →
    ∀ i ∈ (grspw2TxDescMoveFreeAll s).txDescRingFree.head?, (s.desc i).Clean p

/-- Each received packet is clean in the descriptor it gets in its turn. -/
def TxCore.RoutesClean : TxCore → List (Nat × Nat) → Prop
  | _, [] => True
  | s, (pktAddr, pktSize) :: received =>
    s.TakesClean (routedPkt pktAddr pktSize) ∧
      ((grspw2TxDescAddPkt s (routedPkt pktAddr pktSize)).1 = 0 →
        TxCore.RoutesClean (grspw2TxDescAddPkt s (routedPkt pktAddr pktSize)).2 received)

/-- Every packet is clean in its descriptor. -/
def TxClean (s : TxCore) : TxOp → Prop
  | .addPkt hdr hdrSize data dataSize => s.TakesClean ⟨false, hdr, hdrSize, 0, data, dataSize⟩
  | .addRmap hdr hdrSize nonCrcBytes data dataSize =>
    s.TakesClean ⟨true, hdr, hdrSize, nonCrcBytes, data, dataSize⟩
  | .route received => s.RoutesClean received
  | .complete _ => True

/-! ## 3. Writing a descriptor -/

section Write

variable {d : TxDesc} {p : TxPkt}

/-- A bit that is only ever set. -/
theorem crc_written_iff {c : Prop} [Decidable c] {b : Bool} :
    (if c then true else b) = decide c ↔ (b = true → c) := by
  by_cases h : c
  · simp [h]
  · cases b <;> simp [h]

/-- **What a call writes is the packet**, if and only if the packet is clean in the descriptor. -/
theorem describes_txDescWrite_iff : (txDescWrite d p).Describes p ↔ d.Clean p := by
  have hhdr : p.hdrSize % 2 ^ 8 = p.hdrSize ↔ p.hdrSize < 2 ^ 8 := by omega
  have hdata : p.dataSize % 2 ^ 24 = p.dataSize ↔ p.dataSize < 2 ^ 24 := by omega
  have hcrc : ∀ n : Nat, (p.rmapPkt && decide (n ≠ 0)) = decide (p.rmapPkt = true ∧ n ≠ 0) := by
    intro n
    cases p.rmapPkt <;> simp
  have hcount : (if p.rmapPkt = true ∧ p.nonCrcBytes ≠ 0 then p.nonCrcBytes % 16 else d.nonCrcBytes) =
      (if p.rmapPkt = true then p.nonCrcBytes else 0) ↔
      (p.rmapPkt = true → p.nonCrcBytes < 16) ∧
        (d.nonCrcBytes ≠ 0 → p.rmapPkt = true ∧ p.nonCrcBytes ≠ 0) := by
    cases p.rmapPkt with
    | false => simp
    | true =>
      by_cases hzero : p.nonCrcBytes = 0
      · simp [hzero]
      · simp only [ne_eq, hzero, not_false_eq_true, and_self, if_true, forall_const, implies_true,
          and_true]
        omega
  constructor
  · rintro ⟨h₁, h₂, h₃, h₄, h₅⟩
    obtain ⟨hcount₁, hcount₂⟩ := hcount.mp h₅
    exact ⟨hhdr.mp h₁, hdata.mp h₂, hcount₁, crc_written_iff.mp (h₃.trans (hcrc _)),
      crc_written_iff.mp (h₄.trans (hcrc _)), hcount₂⟩
  · rintro ⟨h₁, h₂, hcount₁, h₃, h₄, hcount₂⟩
    exact ⟨hhdr.mpr h₁, hdata.mpr h₂, (crc_written_iff.mpr h₃).trans (hcrc _).symm,
      (crc_written_iff.mpr h₄).trans (hcrc _).symm, hcount.mpr ⟨hcount₁, hcount₂⟩⟩

/-- The other bits do not matter. -/
theorem TxDesc.describes_flags (d : TxDesc) (linkError wrap enable : Bool) :
    TxDesc.Describes { d with linkError := linkError, wrap := wrap, enable := enable } p ↔
      d.Describes p :=
  ⟨fun ⟨h₁, h₂, h₃, h₄, h₅⟩ => ⟨h₁, h₂, h₃, h₄, h₅⟩, fun ⟨h₁, h₂, h₃, h₄, h₅⟩ => ⟨h₁, h₂, h₃, h₄, h₅⟩⟩

end Write

/-! ## 4. The rings -/

section Rings

variable {s : TxCore} {p : TxPkt}

/-- Descriptors that are not enabled go from the head of the one ring to the tail of the other. -/
theorem moveFreeAll_split (desc : Nat → TxDesc) : ∀ (used free : List Nat),
    ∃ done, (∀ i ∈ done, (desc i).enable = false) ∧ (moveFreeAll desc free used).1 = free ++ done ∧
      used = done ++ (moveFreeAll desc free used).2
  | [], free => ⟨[], by simp, by simp [moveFreeAll], by simp [moveFreeAll]⟩
  | i :: used, free => by
    by_cases h : (desc i).enable = true
    · exact ⟨[], by simp, by simp [moveFreeAll, h], by simp [moveFreeAll, h]⟩
    · obtain ⟨done, hdone, hfree, hused⟩ := moveFreeAll_split desc used (free ++ [i])
      refine ⟨i :: done, ?_, ?_, ?_⟩
      · intro j hj
        rcases List.mem_cons.mp hj with rfl | hj
        · exact Bool.eq_false_iff.mpr h
        · exact hdone j hj
      · rw [moveFreeAll, if_neg h, hfree, List.append_assoc, List.singleton_append]
      · rw [moveFreeAll, if_neg h, List.cons_append, ← hused]

/-- No descriptor is in both rings, or twice in one. -/
def TxCore.Rings (s : TxCore) : Prop := (s.txDescRingFree ++ s.txDescRingUsed).Nodup

theorem TxCore.Rings.moved (h : s.Rings) : (grspw2TxDescMoveFreeAll s).Rings := by
  obtain ⟨done, -, hfree, hused⟩ := moveFreeAll_split s.desc s.txDescRingUsed s.txDescRingFree
  rw [TxCore.Rings, grspw2TxDescMoveFreeAll]
  dsimp only
  rw [hfree, List.append_assoc, ← hused]
  exact h

theorem mem_used_of_moved {i : Nat} (hi : i ∈ (grspw2TxDescMoveFreeAll s).txDescRingUsed) :
    i ∈ s.txDescRingUsed := by
  obtain ⟨done, -, -, hused⟩ := moveFreeAll_split s.desc s.txDescRingUsed s.txDescRingFree
  rw [hused]
  exact List.mem_append_right _ hi

/-- A descriptor that is enabled stays in use. -/
theorem mem_moved_of_enable {i : Nat} (hi : i ∈ s.txDescRingUsed) (henable : (s.desc i).enable = true) :
    i ∈ (grspw2TxDescMoveFreeAll s).txDescRingUsed := by
  obtain ⟨done, hdone, -, hused⟩ := moveFreeAll_split s.desc s.txDescRingUsed s.txDescRingFree
  rw [hused] at hi
  rcases List.mem_append.mp hi with hi | hi
  · rw [hdone i hi] at henable
    cases henable
  · exact hi

/-- Between two calls nothing is wrong. -/
structure TxCore.Inv (s : TxCore) : Prop where
  rings : s.Rings
  current : s.Current

theorem TxCore.Inv.moved (h : s.Inv) : (grspw2TxDescMoveFreeAll s).Inv :=
  ⟨h.rings.moved, fun i hi => h.current i (mem_used_of_moved hi)⟩

/-- A descriptor is in use for a packet it does not describe, and will be sent. -/
def TxCore.Spoiled (s : TxCore) : Prop :=
  ∃ i ∈ s.txDescRingUsed, (s.desc i).enable = true ∧ ¬ (s.desc i).Describes (s.pkt i)

theorem TxCore.Spoiled.not_current (h : s.Spoiled) : ¬ s.Current := by
  obtain ⟨i, hi, -, hnot⟩ := h
  exact fun hcurrent => hnot (hcurrent i hi)

theorem TxCore.Spoiled.moved (h : s.Spoiled) : (grspw2TxDescMoveFreeAll s).Spoiled := by
  obtain ⟨i, hi, henable, hnot⟩ := h
  exact ⟨i, mem_moved_of_enable hi henable, henable, hnot⟩

/-- What `grspw2_tx_desc_add_pkt` can do. -/
theorem grspw2TxDescAddPkt_cases (s : TxCore) (p : TxPkt) :
    (grspw2TxDescAddPkt s p = (-1, s) ∧
        ((p.hdrSize ≠ 0 ∧ p.hdrBuf = 0) ∨ (p.dataSize ≠ 0 ∧ p.dataBuf = 0))) ∨
      (((p.hdrSize ≠ 0 → p.hdrBuf ≠ 0) ∧ (p.dataSize ≠ 0 → p.dataBuf ≠ 0)) ∧
        (((grspw2TxDescMoveFreeAll s).txDescRingFree = [] ∧
            grspw2TxDescAddPkt s p = (-1, grspw2TxDescMoveFreeAll s)) ∨
          ∃ i free wrap, (grspw2TxDescMoveFreeAll s).txDescRingFree = i :: free ∧
            grspw2TxDescAddPkt s p = (0, { grspw2TxDescMoveFreeAll s with
              desc := Function.update s.desc i
                { txDescWrite (s.desc i) p with wrap := wrap, enable := true }
              txDescRingFree := free
              txDescRingUsed := (grspw2TxDescMoveFreeAll s).txDescRingUsed ++ [i]
              pkt := Function.update s.pkt i p }))) := by
  unfold grspw2TxDescAddPkt
  by_cases hhdr : p.hdrSize ≠ 0 ∧ p.hdrBuf = 0
  · exact .inl ⟨if_pos hhdr, .inl hhdr⟩
  · by_cases hdata : p.dataSize ≠ 0 ∧ p.dataBuf = 0
    · exact .inl ⟨by rw [if_neg hhdr, if_pos hdata], .inr hdata⟩
    · refine .inr ⟨⟨fun h h' => hhdr ⟨h, h'⟩, fun h h' => hdata ⟨h, h'⟩⟩, ?_⟩
      rw [if_neg hhdr, if_neg hdata]
      cases hfree : (grspw2TxDescMoveFreeAll s).txDescRingFree with
      | nil => exact .inl ⟨rfl, by simp only [hfree]⟩
      | cons i free =>
        by_cases hlast : i = s.txNDesc - 1
        · refine .inr ⟨i, free, true, rfl, ?_⟩
          simp only [hfree]
          simp [grspw2TxDescMoveFreeAll, hlast]
        · refine .inr ⟨i, free, (s.desc i).wrap, rfl, ?_⟩
          simp only [hfree]
          simp [grspw2TxDescMoveFreeAll, hlast, txDescWrite]

/-- The free descriptor that is taken is not in use. -/
theorem TxCore.Rings.taken (h : s.Rings) {i : Nat} {free : List Nat}
    (hfree : s.txDescRingFree = i :: free) : i ∉ s.txDescRingUsed := by
  rw [TxCore.Rings, hfree, List.cons_append] at h
  exact fun hi => (List.nodup_cons.mp h).1 (List.mem_append_right _ hi)

/-- A call leaves the other descriptors in use alone. -/
theorem TxCore.Rings.addPkt (h : s.Rings) (p : TxPkt) :
    (grspw2TxDescAddPkt s p).2.Rings ∧
      (s.Spoiled → (grspw2TxDescAddPkt s p).2.Spoiled) := by
  rcases grspw2TxDescAddPkt_cases s p with
    ⟨heq, -⟩ | ⟨-, ⟨-, heq⟩ | ⟨i, free, wrap, hfree, heq⟩⟩
  · rw [heq]
    exact ⟨h, id⟩
  · rw [heq]
    exact ⟨h.moved, TxCore.Spoiled.moved⟩
  · have hrings := h.moved
    have hnot := hrings.taken hfree
    rw [heq]
    constructor
    · rw [TxCore.Rings, hfree, List.cons_append] at hrings
      rw [TxCore.Rings]
      dsimp only
      rw [← List.append_assoc]
      exact (List.perm_append_singleton i _).nodup_iff.mpr hrings
    · intro hspoiled
      obtain ⟨j, hj, henable, hbad⟩ := hspoiled.moved
      have hji : j ≠ i := ne_of_mem_of_not_mem hj hnot
      refine ⟨j, List.mem_append_left _ hj, ?_, ?_⟩
      · dsimp only
        rw [Function.update_of_ne hji]
        exact henable
      · dsimp only
        rw [Function.update_of_ne hji, Function.update_of_ne hji]
        exact hbad

/-- **One call**: the packet is clean in its descriptor, or it is queued and will be sent wrong. -/
theorem TxCore.Inv.addPkt (h : s.Inv) (p : TxPkt) :
    (s.TakesClean p → (grspw2TxDescAddPkt s p).2.Inv) ∧
      (¬ s.TakesClean p → (grspw2TxDescAddPkt s p).1 = 0 ∧ (grspw2TxDescAddPkt s p).2.Spoiled) := by
  have hrings := (h.rings.addPkt p).1
  rcases grspw2TxDescAddPkt_cases s p with
    ⟨heq, hnull⟩ | ⟨hbufs, ⟨hnone, heq⟩ | ⟨i, free, wrap, hfree, heq⟩⟩
  · rw [heq]
    refine ⟨fun _ => h, fun hnot => absurd (fun hhdr hdata => ?_) hnot⟩
    rcases hnull with ⟨hne, hzero⟩ | ⟨hne, hzero⟩
    · exact absurd hzero (hhdr hne)
    · exact absurd hzero (hdata hne)
  · rw [heq]
    refine ⟨fun _ => h.moved, fun hnot => absurd (fun _ _ i hi => ?_) hnot⟩
    rw [hnone] at hi
    cases hi
  · have hclean : s.TakesClean p ↔ (s.desc i).Clean p := by
      constructor
      · intro hok
        refine hok hbufs.1 hbufs.2 i ?_
        rw [hfree]
        rfl
      · intro hok _ _ j hj
        rw [hfree] at hj
        obtain rfl : i = j := Option.some.inj hj
        exact hok
    have hnew : ∀ wrap, TxDesc.Describes
        { txDescWrite (s.desc i) p with wrap := wrap, enable := true } p ↔ (s.desc i).Clean p :=
      fun wrap => (TxDesc.describes_flags (txDescWrite (s.desc i) p) _ wrap true).trans
        describes_txDescWrite_iff
    rw [heq] at hrings ⊢
    rw [hclean]
    refine ⟨fun hok => ⟨hrings, fun j hj => ?_⟩, fun hnot => ⟨rfl, i, ?_, ?_, ?_⟩⟩
    · dsimp only
      by_cases hji : j = i
      · subst hji
        rw [Function.update_self, Function.update_self]
        exact (hnew wrap).mpr hok
      · rw [Function.update_of_ne hji, Function.update_of_ne hji]
        refine h.moved.current j ?_
        rcases List.mem_append.mp hj with hj | hj
        · exact hj
        · exact absurd (List.mem_singleton.mp hj) hji
    · exact List.mem_append_right _ (List.mem_singleton_self i)
    · dsimp only
      rw [Function.update_self]
    · dsimp only
      rw [Function.update_self, Function.update_self]
      exact fun hbad => hnot ((hnew wrap).mp hbad)

/-- The bytes counted do not matter. -/
theorem TxCore.Inv.add (h : s.Inv) (p : TxPkt) :
    ((grspw2Add s p).2.Current ↔ s.TakesClean p) ∧ (s.TakesClean p → (grspw2Add s p).2.Inv) := by
  obtain ⟨hclean, hspoiled⟩ := h.addPkt p
  have hsame : (grspw2Add s p).2.Current ↔ (grspw2TxDescAddPkt s p).2.Current := by
    unfold grspw2Add
    by_cases hret : (grspw2TxDescAddPkt s p).1 ≠ 0
    · rw [if_pos hret]
    · rw [if_neg hret]
      exact Iff.rfl
  have hinv : (grspw2TxDescAddPkt s p).2.Inv → (grspw2Add s p).2.Inv := by
    unfold grspw2Add
    by_cases hret : (grspw2TxDescAddPkt s p).1 ≠ 0
    · rw [if_pos hret]
      exact id
    · rw [if_neg hret]
      exact fun h => ⟨h.rings, h.current⟩
  refine ⟨?_, fun hok => hinv (hclean hok)⟩
  rw [hsame]
  constructor
  · intro hcurrent
    by_contra hnot
    exact (hspoiled hnot).2.not_current hcurrent
  · exact fun hok => (hclean hok).current

/-- A packet that will be sent wrong stays so, whatever is routed. -/
theorem TxCore.Spoiled.route : ∀ (received : List (Nat × Nat)) {s : TxCore}, s.Rings → s.Spoiled →
    (grspw2Route s received).Spoiled
  | [], _, _, h => h.moved
  | (pktAddr, pktSize) :: received, s, hrings, h => by
    obtain ⟨hrings', hspoiled⟩ := hrings.addPkt (routedPkt pktAddr pktSize)
    unfold grspw2Route
    dsimp only
    split
    · exact (hspoiled h).moved
    · exact TxCore.Spoiled.route received hrings' (hspoiled h)

/-- **Routing**: all packets are clean in their descriptors, or one will be sent wrong. -/
theorem TxCore.Inv.route : ∀ (received : List (Nat × Nat)) {s : TxCore}, s.Inv →
    (s.RoutesClean received → (grspw2Route s received).Inv) ∧
      (¬ s.RoutesClean received → (grspw2Route s received).Spoiled)
  | [], _, h => ⟨fun _ => h.moved, fun hnot => absurd trivial hnot⟩
  | (pktAddr, pktSize) :: received, s, h => by
    obtain ⟨hclean, hspoiled⟩ := h.addPkt (routedPkt pktAddr pktSize)
    have hrings := (h.rings.addPkt (routedPkt pktAddr pktSize)).1
    unfold grspw2Route TxCore.RoutesClean
    dsimp only
    by_cases hret : (grspw2TxDescAddPkt s (routedPkt pktAddr pktSize)).1 ≠ 0
    · rw [if_pos hret]
      refine ⟨fun hok => (hclean hok.1).moved, fun hnot => ?_⟩
      have hdirty : ¬ s.TakesClean (routedPkt pktAddr pktSize) :=
        fun hok => hnot ⟨hok, fun hzero => absurd hzero hret⟩
      exact absurd (hspoiled hdirty).1 hret
    · rw [if_neg hret]
      have hzero := not_not.mp hret
      by_cases hok : s.TakesClean (routedPkt pktAddr pktSize)
      · obtain ⟨hrest, hbad⟩ := TxCore.Inv.route received (hclean hok)
        exact ⟨fun hall => hrest (hall.2 hzero),
          fun hnot => hbad fun hrest' => hnot ⟨hok, fun _ => hrest'⟩⟩
      · exact ⟨fun hall => absurd hall.1 hok,
          fun _ => TxCore.Spoiled.route received hrings (hspoiled hok).2⟩

/-- A descriptor that has been sent keeps its packet. -/
theorem TxCore.Inv.complete (h : s.Inv) (linkError : Bool) : (txComplete s linkError).Inv := by
  unfold txComplete
  split
  · exact h
  · refine ⟨h.rings, fun j hj => ?_⟩
    rename_i i _
    dsimp only
    by_cases hji : j = i
    · subst hji
      rw [Function.update_self]
      exact (TxDesc.describes_flags (s.desc j) linkError _ false).mpr (h.current j hj)
    · rw [Function.update_of_ne hji]
      exact h.current j hj

theorem TxCore.Inv.step_iff (h : s.Inv) (o : TxOp) :
    ((txStep s o).Current ↔ TxClean s o) ∧ (TxClean s o → (txStep s o).Inv) := by
  cases o with
  | addPkt hdr hdrSize data dataSize => exact h.add _
  | addRmap hdr hdrSize nonCrcBytes data dataSize => exact h.add _
  | route received =>
    obtain ⟨hclean, hspoiled⟩ := TxCore.Inv.route received h
    refine ⟨⟨fun hcurrent => ?_, fun hok => (hclean hok).current⟩, hclean⟩
    by_contra hnot
    exact (hspoiled hnot).not_current hcurrent
  | complete linkError =>
    exact ⟨iff_of_true (h.complete linkError).current trivial, fun _ => h.complete linkError⟩

end Rings

theorem grspw2TxDescTableInit_inv (tblSize dataSize : Nat) :
    (grspw2TxDescTableInit tblSize dataSize).Inv where
  rings := by
    rw [TxCore.Rings, grspw2TxDescTableInit, List.append_nil]
    exact List.nodup_range
  current i hi := by cases hi

/-- **Transmit descriptors.**  In every run each descriptor in use describes the packet it has been
queued for, if and only if every packet is clean in the descriptor it gets. -/
theorem tx_desc_current_iff (tblSize dataSize : Nat) (ops : List TxOp) :
    Along txStep TxCore.Current (grspw2TxDescTableInit tblSize dataSize) ops ↔
      StepsMeet txStep TxClean (grspw2TxDescTableInit tblSize dataSize) ops :=
  along_iff_stepsMeet (fun _ h => h.current) (fun _ o h => (h.step_iff o).1)
    (fun _ o h => (h.step_iff o).2) ops (grspw2TxDescTableInit_inv tblSize dataSize)

/-- **A bit is left over.**  In a table of one descriptor a plain packet follows an RMAP packet. -/
theorem tx_desc_stale_crc :
    ¬ ∀ (tblSize dataSize : Nat) (ops : List TxOp),
      Along txStep TxCore.Current (grspw2TxDescTableInit tblSize dataSize) ops := by
  intro h
  have hcurrent := Along.stop _ (h 16 64
    [.addRmap 4096 8 0 0 0, .complete false, .addPkt 4096 8 0 0])
  exact absurd (hcurrent 0 (by decide)).appendHeaderCrc (by decide)

end FlightOs
