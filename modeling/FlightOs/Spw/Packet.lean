/-
# Taking a packet from the ring

`grspw2_get_pkt` and `grspw2_drop_pkt` mask the receive interrupt while packets are dropped by it, and
`grspw2_get_pkt` comes to its end by one way only, where the interrupt is enabled again.
`grspw2_drop_pkt` returns early where nothing waits, and leaves it masked: `rx_irq_armed` says that this
is the only call after which an enabled interrupt is not enabled.

The size of a packet is reported less the header that is stripped, and so much is copied from behind
that header.  `pkt_copy_bounds`: this is within the packet if, and only if, the packet is as long as
the header; the size of a shorter one wraps to the top of the word.
-/
import FlightOs.Spw.RxRing

namespace FlightOs

/-! ## 1. The receive interrupt -/

/-- A call that takes a packet. -/
inductive RxCall
  | getPkt (pkt : Bool)
  | dropPkt
  deriving DecidableEq, Repr

def rxCall (s : RxCore) : RxCall → RxCore
  | .getPkt pkt => (grspw2GetPkt s pkt).1
  | .dropPkt => (grspw2DropPkt s).1

/-- Putting a descriptor to use again leaves the settings of the core. -/
theorem rxTakeHead_autoDrop (s : RxCore) (i : Nat) : (rxTakeHead s i).autoDrop = s.autoDrop := by
  have hframe := grspw2RxDescReadd_framed { s with rxBytes := wadd s.rxBytes (s.desc i).pktSize } i
  unfold rxTakeHead
  dsimp only
  split
  · exact hframe.autoDrop
  · exact hframe.autoDrop

theorem rxIrqSet_on {s : RxCore} (hdrop : s.autoDrop = true) (on : Bool) :
    rxIrqSet s on = { s with rxIrq := on } := by
  rw [rxIrqSet, if_pos hdrop]

theorem rxIrqSet_autoDrop (s : RxCore) (on : Bool) : (rxIrqSet s on).autoDrop = s.autoDrop := by
  unfold rxIrqSet
  split <;> rfl

/-- Where the call comes to its regular end, the interrupt is enabled. -/
theorem rxIrqSet_enabled {s : RxCore} (hdrop : s.autoDrop = true) : (rxIrqSet s true).rxIrq = true := by
  rw [rxIrqSet_on hdrop]

theorem grspw2GetPkt_rxIrq {s : RxCore} (hdrop : s.autoDrop = true) (pkt : Bool) :
    (grspw2GetPkt s pkt).1.rxIrq = true := by
  have hmask : (rxIrqSet s false).autoDrop = true := (rxIrqSet_autoDrop s false).trans hdrop
  rcases grspw2GetPkt_cases s pkt with ⟨hsame, -⟩ | ⟨i, rest, -, -, -, heq⟩
  · rw [hsame]
    exact rxIrqSet_enabled hmask
  · rw [heq]
    exact rxIrqSet_enabled ((rxTakeHead_autoDrop _ i).trans hmask)

theorem grspw2DropPkt_rxIrq {s : RxCore} (hdrop : s.autoDrop = true) :
    (grspw2DropPkt s).1.rxIrq = s.filledHead := by
  have hmask : (rxIrqSet s false).autoDrop = true := (rxIrqSet_autoDrop s false).trans hdrop
  obtain ⟨hused, hdesc, -⟩ := rxIrqSet_kept s false
  unfold grspw2DropPkt RxCore.filledHead
  dsimp only
  rw [hused, hdesc]
  cases s.rxDescRingUsed with
  | nil =>
    rw [rxIrqSet_on hdrop]
    rfl
  | cons i rest =>
    dsimp only [List.head?_cons, Option.any_some]
    cases (s.desc i).enable with
    | true =>
      rw [if_pos rfl, rxIrqSet_on hdrop]
      rfl
    | false =>
      rw [if_neg Bool.false_ne_true]
      exact rxIrqSet_enabled ((rxTakeHead_autoDrop _ i).trans hmask)

/-- **The interrupt stays armed** but for a call of `grspw2_drop_pkt` that finds no packet. -/
theorem rx_irq_armed {s : RxCore} (hdrop : s.autoDrop = true) (c : RxCall) :
    (s.rxIrq = true → (rxCall s c).rxIrq = true) ↔
      (s.rxIrq = true → c = .dropPkt → s.filledHead = true) := by
  cases c with
  | getPkt pkt =>
    have hon : (rxCall s (.getPkt pkt)).rxIrq = true := grspw2GetPkt_rxIrq hdrop pkt
    exact ⟨fun _ _ hc => RxCall.noConfusion hc, fun _ _ => hon⟩
  | dropPkt =>
    rw [rxCall, grspw2DropPkt_rxIrq hdrop]
    exact ⟨fun hfilled hirq _ => hfilled hirq, fun hfilled hirq => hfilled hirq rfl⟩

/-- Two descriptors in use, and packets are dropped one by one. -/
def rxArmed : RxCore :=
  ((grspw2AutoDropEnable (grspw2CoreStart rxSample.rx) 1).map Prod.snd).getD rxSample.rx

theorem rx_irq_armed_sample : rxArmed.rxIrq = true ∧ (rxCall rxArmed (.getPkt true)).rxIrq = true :=
  ⟨by decide, (rx_irq_armed (by decide) (.getPkt true)).mpr (fun _ => by decide) (by decide)⟩

/-- Nothing has been received yet: the call returns, and the interrupt is masked. -/
theorem rx_irq_masked : ¬ ∀ s : RxCore, s.autoDrop = true →
    ∀ c, s.rxIrq = true → (rxCall s c).rxIrq = true :=
  fun h => absurd (h rxArmed (by decide) .dropPkt (by decide)) (by decide)

/-! ## 2. The size of a packet -/

/-- `grspw2_get_next_pkt_size` -/
def grspw2GetNextPktSize (s : RxCore) : Nat :=
  match s.rxDescRingUsed with
  | [] => 0
  | i :: _ =>
    -- still active
    if (s.desc i).enable then 0 else wsub (s.desc i).pktSize s.stripHdrBytes

/-- The packet `p` is the next one to be taken. -/
def RxCore.Waits (s : RxCore) (p : List UInt8) : Prop :=
  ∃ i rest, s.rxDescRingUsed = i :: rest ∧ (s.desc i).enable = false ∧ (s.desc i).bytes = p

/-- Both calls report one size, which is not larger than the packet, and what is copied are the bytes of
the packet behind the header that is stripped. -/
structure RxCore.CopyBounded (s : RxCore) (p : List UInt8) : Prop where
  same : ∀ pkt, (grspw2GetPkt s pkt).2.1 = grspw2GetNextPktSize s
  size_le : grspw2GetNextPktSize s ≤ p.length
  copied : (grspw2GetPkt s true).2.2 = p.drop s.stripHdrBytes

/-- In a run without dropping the packet that waits is the first one that has been received and not
taken. -/
theorem RxSys.waits_next {s : RxSys} (hs : rxSystem.Reachable (fun _ _ => True) s) {p : List UInt8} :
    s.rx.Waits p ↔ (s.received.drop s.taken.length).head? = some p := by
  obtain ⟨-, h, u, f, hi⟩ := rxSystem_reachable hs
  rw [hi.pending]
  constructor
  · rintro ⟨i, rest, hused, henable, rfl⟩
    obtain ⟨rfl, f, rfl⟩ := hi.rings.filled_head hused henable
    rw [RxCore.pending_succ hi.rings.head, List.head?_cons]
  · intro hp
    cases f with
    | zero =>
      rw [RxCore.pending, arc_zero] at hp
      cases hp
    | succ f =>
      rw [RxCore.pending_succ hi.rings.head] at hp
      rcases hi.rings.head_cases with ⟨-, hf, -⟩ | ⟨rest, hused, -, henable⟩
      · cases hf
      · exact ⟨h, rest, hused, henable, Option.some.inj hp⟩

section Waits

variable {s : RxCore} {p : List UInt8}

theorem RxCore.Waits.nextPktSize (hw : s.Waits p) :
    grspw2GetNextPktSize s = wsub p.length s.stripHdrBytes := by
  obtain ⟨i, rest, hused, henable, rfl⟩ := hw
  unfold grspw2GetNextPktSize
  rw [hused]
  dsimp only
  rw [henable, if_neg Bool.false_ne_true, RxDesc.length_bytes]

/-- What `grspw2_get_pkt` reports and copies. -/
theorem RxCore.Waits.getPkt (hw : s.Waits p) (pkt : Bool) :
    (grspw2GetPkt s pkt).2.1 = wsub p.length s.stripHdrBytes ∧
    (grspw2GetPkt s true).2.2.length = wsub p.length s.stripHdrBytes ∧
    (s.stripHdrBytes ≤ p.length → p.length < 2 ^ 32 →
      (grspw2GetPkt s true).2.2 = p.drop s.stripHdrBytes) := by
  obtain ⟨i, rest, hused, henable, rfl⟩ := hw
  obtain ⟨hkeep, hdesc, hstrip⟩ := rxIrqSet_kept s false
  unfold grspw2GetPkt
  dsimp only
  rw [hkeep, hdesc, hstrip, hused]
  dsimp only
  rw [henable, RxDesc.length_bytes]
  refine ⟨?_, ?_, fun hle hsize => ?_⟩
  · cases pkt <;> rfl
  · exact (List.length_map _).trans List.length_range
  · obtain ⟨-, hbytes⟩ := takenFrom_got (d := s.desc i) s.stripHdrBytes hsize
    exact hbytes ((RxDesc.length_bytes _).symm ▸ hle)

end Waits

/-- **What is copied of a packet is within it** if, and only if, the packet is not shorter than the
header that is stripped. -/
theorem pkt_copy_bounds {s : RxCore} {p : List UInt8} (hw : s.Waits p) (hp : p.length < 2 ^ 32)
    (hstrip : s.stripHdrBytes < 2 ^ 32) : s.CopyBounded p ↔ s.stripHdrBytes ≤ p.length := by
  constructor
  · intro hc
    by_contra hshort
    have hle := hc.size_le
    rw [hw.nextPktSize, wsub_of_lt hstrip (Nat.lt_of_not_le hshort)] at hle
    omega
  · intro hle
    refine ⟨fun pkt => (hw.getPkt pkt).1.trans hw.nextPktSize.symm, ?_, ?_⟩
    · rw [hw.nextPktSize, wsub_of_le hp hle]
      exact Nat.sub_le _ _
    · exact (hw.getPkt true).2.2 hle hp

/-- A core that strips two bytes. -/
def rxStripSample : RxSys :=
  { rxSample with rx := grspw2RxDescTableInit (fun _ _ => 0) 16 0x40000000 8 2 }

theorem rxStripSample_init : rxStripSample.Init :=
  ⟨fun _ _ => 0, 16, 0x40000000, 8, 2, by decide, by decide, by decide, by decide, by decide, rfl, rfl,
    rfl⟩

theorem pkt_copy_bounds_stripped : ∃ s, s ∈ System.stepAll rxStep rxStripSample
    [.coreStart, .receive [7, 8, 9]] ∧ s.rx.CopyBounded [7, 8, 9] := by
  refine ⟨_, rfl, ?_⟩
  exact (pkt_copy_bounds ⟨0, [1], rfl, rfl, rfl⟩ (by decide) (by decide)).mpr (by decide)

/-- Of a packet of one byte two are stripped: `2 ^ 32 - 1` bytes are reported, and copied. -/
theorem pkt_copy_wraps : ¬ ∀ s : RxSys, rxSystem.Reachable (fun _ _ => True) s →
    s.rx.stripHdrBytes < 2 ^ 32 → ∀ p, (s.received.drop s.taken.length).head? = some p →
    s.rx.CopyBounded p := by
  intro h
  have hs : rxSystem.Reachable (fun _ _ => True) _ :=
    System.Reachable.stepAll [.coreStart, .receive [7]] (.init rxStripSample_init)
      (by simp only [System.AllowedAll, Option.mem_def, implies_true, and_self]) rfl
  exact absurd (h _ hs (by decide) [7] rfl).size_le (by decide)

end FlightOs
