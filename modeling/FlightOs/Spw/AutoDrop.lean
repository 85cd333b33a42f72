/-
# Dropping packets by interrupts

Where packets are to be dropped when nobody fetches them, one receive descriptor has its interrupt flag
set: the one `n_drop` places after the head.  When it is filled, the handler adds the `n_drop` first
descriptors again and moves the flag on by as many; fetching a packet moves the flag on by one.  An
interrupt may have been raised and not served yet when packets are fetched; calls and interrupts do not
overlap otherwise.

* `RxCore.Drops.takeHead`, `RxCore.Drops.interrupt`, `RxCore.Drops.receive`: what the steps do to the
  place of the flag, and to the descriptors filled.
* `auto_drop_flag`: the flag is where it should be, and no interrupt adds a descriptor that is not
  filled, if interrupts are served before more packets have been fetched than have arrived, and one
  more, and dropping is never disabled.
* `auto_drop_disabled`: when it is disabled, the flag stays set.
-/
import FlightOs.Spw.RxRing

namespace FlightOs

/-! ## 1. Runs with dropping -/

/-- The descriptors that the loop of `grspw2_auto_drop_call` adds again, as it finds them. -/
def rxDropLoopDescs : Nat → RxCore → List RxDesc
  | 0, _ => []
  | n + 1, s =>
    match s.rxDescRingUsed with
    | [] => []
    | i :: _ =>
      let s := { s with rxBytes := wadd s.rxBytes (s.desc i).pktSize }
      s.desc i :: rxDropLoopDescs n (grspw2RxDescReadd s i).2

/-- The flag is moved on. -/
def rxFlagMove (s : RxCore) (k : Nat) : RxCore :=
  let idx := rxIdxWrap s (s.idxDrop + k)
  { rxDescIrq (rxDescIrq s s.idxDrop false) idx true with idxDrop := idx }

theorem rxDropAdvance_eq (s : RxCore) : rxDropAdvance s = rxFlagMove s 1 := rfl

theorem grspw2AutoDropCall_eq (s : RxCore) :
    grspw2AutoDropCall s = rxDropLoop s.nDrop (rxFlagMove s s.nDrop) := rfl

/-- A core, the packets fetched and received since the interrupt that waits has been raised, and the
descriptors that interrupts have added again. -/
structure DropSys where
  rx : RxCore
  fetched : Nat
  arrived : Nat
  dropped : List RxDesc

inductive DropOp
  | receive (data : List UInt8)
  | interrupt
  | getPkt (pkt : Bool)
  | dropPkt
  | enable (nDrop : Nat)
  | disable
  deriving DecidableEq, Repr

/-- A step.  The handler is there while packets are dropped. -/
def dropStep (s : DropSys) : DropOp → Option DropSys
  | .receive data =>
    (rxReceive s.rx data).map fun rx =>
      if s.rx.irqPending then { s with rx := rx, arrived := s.arrived + 1 }
      else { s with rx := rx, fetched := 0, arrived := 0 }
  | .interrupt =>
    if s.rx.irqPending && s.rx.autoDrop then
      let rx := { s.rx with irqPending := false }
      some { s with
        rx := grspw2AutoDropCall rx
        dropped := s.dropped ++ rxDropLoopDescs rx.nDrop (rxFlagMove rx rx.nDrop) }
    else none
  | .getPkt pkt =>
    some { s with
      rx := (grspw2GetPkt s.rx pkt).1
      fetched := if pkt && s.rx.filledHead then s.fetched + 1 else s.fetched }
  | .dropPkt =>
    let r := grspw2DropPkt s.rx
    some { s with rx := r.1, fetched := s.fetched + r.2 }
  | .enable nDrop => (grspw2AutoDropEnable s.rx nDrop).map fun r => { s with rx := r.2 }
  | .disable => some { s with rx := (grspw2AutoDropDisable s.rx).2 }

/-- A core that has been started, with all its descriptors in use. -/
def DropSys.Init (s : DropSys) : Prop :=
  (∃ s₀ : RxSys, rxSystem.Reachable (fun _ _ => True) s₀ ∧ s.rx = s₀.rx) ∧
    s.rx.rxDescRingFree = [] ∧ s.fetched = 0 ∧ s.arrived = 0 ∧ s.dropped = []

def dropSystem : System DropSys DropOp := .ofFun DropSys.Init dropStep

/-- While packets are dropped, the flag is set on the descriptor `n_drop` places after the head and on
no other one, and otherwise on none; interrupts have added filled descriptors only. -/
structure DropSys.Kept (s : DropSys) : Prop where
  flag : s.rx.autoDrop = true → ∃ i, s.rx.rxDescRingUsed[s.rx.nDrop]? = some i ∧
    ∀ j < s.rx.rxNDesc, (s.rx.desc j).interruptEnable = true ↔ j = i
  off : s.rx.autoDrop = false → ∀ j < s.rx.rxNDesc, (s.rx.desc j).interruptEnable = false
  dropped : ∀ d ∈ s.dropped, d.enable = false

/-- An interrupt is served before two packets more have been fetched than have arrived since it has
been raised; dropping is not disabled. -/
def DropTimely (s : DropSys) : DropOp → Prop
  | .interrupt => s.fetched ≤ s.arrived + 1
  | .disable => s.rx.autoDrop = false
  | _ => True

instance decidableDropTimely (s : DropSys) : ∀ o, Decidable (DropTimely s o)
  | .interrupt => inferInstanceAs (Decidable (s.fetched ≤ s.arrived + 1))
  | .disable => inferInstanceAs (Decidable (s.rx.autoDrop = false))
  | .receive _ | .getPkt _ | .dropPkt | .enable _ => isTrue trivial

/-! ## 2. The flag -/

/-- The flag is set on one descriptor. -/
def RxCore.Flagged (s : RxCore) (i : Nat) : Prop :=
  ∀ j, (s.desc j).interruptEnable = decide (j = i)

section Flag

variable {s s' : RxCore} {h u f i k : Nat}

/-- Setting a flag writes nothing else. -/
theorem rxDescIrq_rings (hr : s.Rings h u f) (i : Nat) (on : Bool) : (rxDescIrq s i on).Rings h u f := by
  refine hr.congr rfl rfl rfl rfl fun j => ?_
  dsimp only [rxDescIrq]
  by_cases hji : j = i
  · rw [hji, Function.update_self]
    exact ⟨rfl, rfl⟩
  · rw [Function.update_of_ne hji]
    exact ⟨rfl, rfl⟩

theorem rxIdxWrap_eq (hi : i < s.rxNDesc) (hk : k ≤ s.rxNDesc) :
    rxIdxWrap s (i + k) = circle s.rxNDesc i k := (circle_add_of_lt hi hk).symm

theorem rxDescIrq_flagged (hoff : ∀ j, (s.desc j).interruptEnable = false) (i : Nat) :
    (rxDescIrq s i true).Flagged i := by
  intro j
  dsimp only [rxDescIrq]
  by_cases hji : j = i
  · rw [hji, Function.update_self, decide_eq_true rfl]
  · rw [Function.update_of_ne hji, hoff, decide_eq_false hji]

theorem RxCore.Flagged.cleared (hflag : s.Flagged i) (j : Nat) :
    ((rxDescIrq s i false).desc j).interruptEnable = false := by
  dsimp only [rxDescIrq]
  by_cases hji : j = i
  · rw [hji, Function.update_self]
  · rw [Function.update_of_ne hji, hflag, decide_eq_false hji]

/-- **The flag moves on**, and stays the only one. -/
theorem RxCore.Flagged.move (hflag : s.Flagged s.idxDrop) (hi : s.idxDrop < s.rxNDesc)
    (hk : k ≤ s.rxNDesc) :
    (rxFlagMove s k).idxDrop = circle s.rxNDesc s.idxDrop k ∧
      (rxFlagMove s k).Flagged (circle s.rxNDesc s.idxDrop k) := by
  rw [← rxIdxWrap_eq hi hk]
  exact ⟨rfl, rxDescIrq_flagged hflag.cleared _⟩

theorem RxCore.Flagged.framed (hflag : s.Flagged i) (hframe : s.Framed s') : s'.Flagged i := by
  intro j
  rw [(hframe.desc j).1]
  exact hflag j

theorem rxFlagMove_rings (hr : s.Rings h u f) (k : Nat) : (rxFlagMove s k).Rings h u f :=
  (rxDescIrq_rings (rxDescIrq_rings hr _ false) _ true).congr rfl rfl rfl rfl fun _ => ⟨rfl, rfl⟩

end Flag

/-! ## 3. The steps -/

/-- All descriptors are in use, and the flag is where it should be. -/
structure RxCore.Drops (s : RxCore) (h u f : Nat) : Prop where
  rings : s.Rings h u f
  full : s.rxNDesc = u
  on : s.autoDrop = true → s.nDrop < u ∧ s.idxDrop = circle u h s.nDrop ∧ s.Flagged s.idxDrop
  off : s.autoDrop = false → s.irqPending = false ∧ ∀ j, (s.desc j).interruptEnable = false

section Steps

variable {s s' : RxCore} {h u f : Nat}

theorem grspw2RxDescAdd_irqPending (s : RxCore) :
    (grspw2RxDescAdd s).2.irqPending = s.irqPending := by
  unfold grspw2RxDescAdd
  split <;> rfl

theorem rxDropLoop_cons {i : Nat} {rest : List Nat} (hcons : s.rxDescRingUsed = i :: rest) (n : Nat) :
    rxDropLoop (n + 1) s = rxDropLoop n (grspw2RxDescReadd
        { s with rxBytes := wadd s.rxBytes (s.desc i).pktSize } i).2 ∧
      rxDropLoopDescs (n + 1) s = s.desc i :: rxDropLoopDescs n (grspw2RxDescReadd
        { s with rxBytes := wadd s.rxBytes (s.desc i).pktSize } i).2 := by
  constructor
  · rw [rxDropLoop]
    split
    · rename_i hnil
      cases hnil.symm.trans hcons
    · rename_i hcons'
      obtain ⟨rfl, -⟩ := List.cons_eq_cons.mp (hcons.symm.trans hcons')
      rfl
  · rw [rxDropLoopDescs]
    split
    · rename_i hnil
      cases hnil.symm.trans hcons
    · rename_i hcons'
      obtain ⟨rfl, -⟩ := List.cons_eq_cons.mp (hcons.symm.trans hcons')
      rfl

/-- As many filled descriptors are added again as there are. -/
theorem RxCore.Rings.dropLoop : ∀ (n : Nat) {s : RxCore} {h f : Nat}, s.Rings h u f → n ≤ f →
    (rxDropLoop n s).Rings (circle s.rxNDesc h n) u (f - n) ∧ s.Framed (rxDropLoop n s) ∧
      (rxDropLoop n s).irqPending = s.irqPending ∧ ∀ d ∈ rxDropLoopDescs n s, d.enable = false
  | 0, s, h, f, hr, _ => by
    rw [circle_zero hr.head]
    exact ⟨hr, .refl s, rfl, fun d hd => absurd hd List.not_mem_nil⟩
  | n + 1, s, h, f, hr, hle => by
    obtain ⟨f, rfl⟩ := Nat.exists_eq_add_of_le' (Nat.le_of_add_left_le hle)
    have hcount : RxCore.Rings { s with rxBytes := wadd s.rxBytes (s.desc h).pktSize } h u (f + 1) :=
      hr.congr rfl rfl rfl rfl fun _ => ⟨rfl, rfl⟩
    have hframe : s.Framed (grspw2RxDescReadd
        { s with rxBytes := wadd s.rxBytes (s.desc h).pktSize } h).2 :=
      RxCore.Framed.trans (s.framed_count _) (grspw2RxDescReadd_framed _ h)
    rcases hr.head_cases with ⟨-, hzero, -⟩ | ⟨rest, hcons, -, henable⟩
    · cases hzero
    · obtain ⟨hrings, hframed, hirq, hdescs⟩ :=
        RxCore.Rings.dropLoop n hcount.readd.1 (Nat.le_of_succ_le_succ hle)
      rw [hframe.rxNDesc, circle_circle, Nat.add_comm 1 n] at hrings
      rw [(rxDropLoop_cons hcons n).1, (rxDropLoop_cons hcons n).2]
      refine ⟨?_, hframe.trans hframed, hirq.trans (grspw2RxDescAdd_irqPending _), ?_⟩
      · rw [Nat.add_sub_add_right]
        exact hrings
      · intro d hd
        rcases List.mem_cons.mp hd with rfl | hd
        · exact henable
        · exact hdescs d hd

theorem rxIrqSet_irqPending (s : RxCore) (on : Bool) : (rxIrqSet s on).irqPending = s.irqPending := by
  unfold rxIrqSet
  split <;> rfl

theorem rxIrqSet_nDrop (s : RxCore) (on : Bool) : (rxIrqSet s on).nDrop = s.nDrop := by
  unfold rxIrqSet
  split <;> rfl

theorem RxCore.Drops.irqSet (hd : s.Drops h u f) (on : Bool) : (rxIrqSet s on).Drops h u f := by
  unfold rxIrqSet
  split
  · exact ⟨hd.rings.congr rfl rfl rfl rfl fun _ => ⟨rfl, rfl⟩, hd.full, hd.on, hd.off⟩
  · exact hd

/-- **A packet is fetched**, and the flag follows the head. -/
theorem RxCore.Drops.takeHead (hd : s.Drops h u (f + 1)) :
    (rxTakeHead s h).Drops (circle u h 1) u f ∧ (rxTakeHead s h).irqPending = s.irqPending ∧
      (rxTakeHead s h).nDrop = s.nDrop := by
  have hcount : RxCore.Rings { s with rxBytes := wadd s.rxBytes (s.desc h).pktSize } h u (f + 1) :=
    hd.rings.congr rfl rfl rfl rfl fun _ => ⟨rfl, rfl⟩
  have hframe : s.Framed (grspw2RxDescReadd
      { s with rxBytes := wadd s.rxBytes (s.desc h).pktSize } h).2 :=
    RxCore.Framed.trans (s.framed_count _) (grspw2RxDescReadd_framed _ h)
  have hirq : (grspw2RxDescReadd
      { s with rxBytes := wadd s.rxBytes (s.desc h).pktSize } h).2.irqPending = s.irqPending :=
    grspw2RxDescAdd_irqPending _
  have hrings := hcount.readd.1
  have hn : s.rxNDesc = u := hd.full
  unfold rxTakeHead
  dsimp only
  generalize (grspw2RxDescReadd { s with rxBytes := wadd s.rxBytes (s.desc h).pktSize } h).2 = r
    at hframe hirq hrings ⊢
  dsimp only at hrings
  rw [hn] at hrings
  have hfull : r.rxNDesc = u := hframe.rxNDesc.trans hn
  split
  · rename_i hauto
    obtain ⟨hlt, hidx, hflag⟩ := hd.on (hframe.autoDrop.symm.trans hauto)
    have hpos : 0 < u := Nat.zero_lt_of_lt hlt
    have hflag : r.Flagged r.idxDrop := by
      rw [hframe.idxDrop]
      exact hflag.framed hframe
    have hin : r.idxDrop < r.rxNDesc := by
      rw [hfull, hframe.idxDrop, hidx]
      exact circle_lt hpos
    obtain ⟨hmoved, hflag⟩ := hflag.move (k := 1) hin (by omega)
    have hnext : circle r.rxNDesc r.idxDrop 1 = circle u (circle u h 1) s.nDrop := by
      rw [hfull, hframe.idxDrop, hidx, circle_circle, circle_circle, Nat.add_comm]
    rw [hnext] at hmoved hflag
    rw [rxDropAdvance_eq]
    refine ⟨⟨rxFlagMove_rings hrings 1, hfull, fun _ => ⟨?_, ?_, ?_⟩, fun hoff => ?_⟩, hirq,
      hframe.nDrop⟩
    · exact hframe.nDrop ▸ hlt
    · exact hmoved.trans (congrArg _ hframe.nDrop.symm)
    · rw [hmoved]
      exact hflag
    · rw [show (rxFlagMove r 1).autoDrop = r.autoDrop from rfl, hauto] at hoff
      cases hoff
  · rename_i hauto
    have hoff := hd.off (hframe.autoDrop.symm.trans (Bool.eq_false_iff.mpr hauto))
    refine ⟨⟨hrings, hfull, fun hon => absurd hon hauto, fun _ => ⟨hirq.trans hoff.1, fun j => ?_⟩⟩,
      hirq, hframe.nDrop⟩
    rw [(hframe.desc j).1]
    exact hoff.2 j

theorem rxReceive_irqPending {data : List UInt8} (hs : rxReceive s data = some s') :
    s'.irqPending = (s.irqPending || (s.desc s.hwDesc).interruptEnable && s.rxIrq) := by
  unfold rxReceive at hs
  dsimp only at hs
  split at hs
  · cases hs
  · rw [← Option.some.inj hs]

/-- **A packet is received**; an interrupt is raised by the one after the `n_drop` first ones. -/
theorem RxCore.Drops.receive (hd : s.Drops h u f) {data : List UInt8}
    (hs : rxReceive s data = some s') :
    s'.Drops h u (f + 1) ∧ s'.nDrop = s.nDrop ∧
      (s'.irqPending = true → s.irqPending = true ∨ f = s.nDrop) := by
  have hframe := rxReceive_framed hs
  have hrings := (hd.rings.receive hs).1
  refine ⟨⟨hrings, hframe.rxNDesc.trans hd.full, fun hon => ?_, fun hoff => ?_⟩, hframe.nDrop,
    fun hirq => ?_⟩
  · obtain ⟨hlt, hidx, hflag⟩ := hd.on (hframe.autoDrop.symm.trans hon)
    rw [hframe.nDrop, hframe.idxDrop]
    exact ⟨hlt, hidx, hflag.framed hframe⟩
  · obtain ⟨hirq, hnone⟩ := hd.off (hframe.autoDrop.symm.trans hoff)
    exact ⟨(hframe.irqPending hnone).trans hirq, fun j => (hframe.desc j).1.trans (hnone j)⟩
  · rw [rxReceive_irqPending hs, Bool.or_eq_true_iff, Bool.and_eq_true_iff] at hirq
    rcases hirq with hirq | ⟨hraised, -⟩
    · exact .inl hirq
    · right
      by_cases hon : s.autoDrop = true
      · obtain ⟨hlt, hidx, hflag⟩ := hd.on hon
        rw [hflag, hd.rings.hw, hd.full, hidx] at hraised
        have hf := hrings.filled_le
        exact (circle_inj (by omega) hlt).mp (of_decide_eq_true hraised)
      · rw [(hd.off (Bool.eq_false_iff.mpr hon)).2] at hraised
        cases hraised

/-- **An interrupt is served** where enough descriptors are filled. -/
theorem RxCore.Drops.interrupt (hd : s.Drops h u f) (hon : s.autoDrop = true) (hle : s.nDrop ≤ f) :
    (grspw2AutoDropCall s).Drops (circle u h s.nDrop) u (f - s.nDrop) ∧
      (grspw2AutoDropCall s).irqPending = s.irqPending ∧ (grspw2AutoDropCall s).nDrop = s.nDrop ∧
      ∀ d ∈ rxDropLoopDescs s.nDrop (rxFlagMove s s.nDrop), d.enable = false := by
  obtain ⟨hlt, hidx, hflag⟩ := hd.on hon
  have hpos : 0 < u := Nat.zero_lt_of_lt hlt
  have hin : s.idxDrop < s.rxNDesc := by
    rw [hd.full, hidx]
    exact circle_lt hpos
  obtain ⟨hmoved, hflag⟩ := hflag.move (k := s.nDrop) hin (by rw [hd.full]; omega)
  obtain ⟨hrings, hframe, hirq, hdescs⟩ := (rxFlagMove_rings hd.rings s.nDrop).dropLoop s.nDrop hle
  rw [grspw2AutoDropCall_eq]
  have hn : (rxFlagMove s s.nDrop).rxNDesc = u := hd.full
  have hnext : circle s.rxNDesc s.idxDrop s.nDrop = circle u (circle u h s.nDrop) s.nDrop := by
    rw [hd.full, hidx]
  rw [hn] at hrings
  rw [hnext] at hmoved hflag
  refine ⟨⟨hrings, hframe.rxNDesc.trans hn, fun _ => ?_, fun hoff => ?_⟩, hirq, hframe.nDrop, hdescs⟩
  · rw [hframe.nDrop, hframe.idxDrop]
    refine ⟨hlt, hmoved, ?_⟩
    rw [hmoved]
    exact hflag.framed hframe
  · have hauto : (rxDropLoop s.nDrop (rxFlagMove s s.nDrop)).autoDrop = s.autoDrop := hframe.autoDrop
    rw [hauto, hon] at hoff
    cases hoff

/-- **Dropping is enabled**, the flag set relative to the head. -/
theorem RxCore.Drops.enable (hd : s.Drops h u f) {nDrop : Nat} {r : Int × RxCore}
    (hs : grspw2AutoDropEnable s nDrop = some r) :
    r.2.Drops h u f ∧ (r.2 = s ∨ r.2.irqPending = false) := by
  unfold grspw2AutoDropEnable at hs
  by_cases hon : s.autoDrop = true
  · rw [if_pos hon] at hs
    rw [← Option.some.inj hs]
    exact ⟨hd, .inl rfl⟩
  · rw [if_neg hon] at hs
    obtain ⟨hirq, hnone⟩ := hd.off (Bool.eq_false_iff.mpr hon)
    have hu := hd.full
    have hh := hd.rings.head
    split at hs
    · cases hs
    · rename_i i rest hused
      obtain rfl : i = h := by
        rcases hd.rings.head_cases with ⟨-, -, hnil⟩ | ⟨rest, hcons, -, -⟩
        · cases hused.symm.trans hnil
        · exact (List.cons_eq_cons.mp (hused.symm.trans hcons)).1
      have hclamp : (if s.rxNDesc ≤ nDrop then (s.rxNDesc - 1) % 2 ^ 8 else nDrop) < s.rxNDesc := by
        split <;> omega
      generalize (if s.rxNDesc ≤ nDrop then (s.rxNDesc - 1) % 2 ^ 8 else nDrop) = k at hs hclamp
      have hidx := rxIdxWrap_eq hh (Nat.le_of_lt hclamp)
      rw [← Option.some.inj hs]
      refine ⟨⟨?_, hu, fun _ => ⟨hu ▸ hclamp, ?_, ?_⟩, fun hoff => ?_⟩, .inr hirq⟩
      · exact (rxDescIrq_rings hd.rings _ true).congr rfl rfl rfl rfl fun _ => ⟨rfl, rfl⟩
      · exact hidx.trans (congrArg (circle · i k) hu)
      · exact rxDescIrq_flagged hnone _
      · cases hoff

end Steps

/-! ## 4. Runs -/

/-- The interrupt that waits has been raised when one packet more than `n_drop` was there. -/
structure DropSys.Inv (s : DropSys) (h u f : Nat) : Prop where
  drops : s.rx.Drops h u f
  timing : s.rx.irqPending = true → f + s.fetched = s.rx.nDrop + 1 + s.arrived
  dropped : ∀ d ∈ s.dropped, d.enable = false

section Runs

variable {s s' : DropSys} {h u f : Nat}

theorem DropSys.Inv.kept (hi : s.Inv h u f) : s.Kept := by
  have hd := hi.drops
  refine ⟨fun hon => ?_, fun hoff j _ => (hd.off hoff).2 j, hi.dropped⟩
  obtain ⟨hlt, hidx, hflag⟩ := hd.on hon
  refine ⟨s.rx.idxDrop, ?_, fun j _ => ?_⟩
  · rw [hd.rings.used, List.getElem?_eq_getElem (by rwa [length_arc]), getElem_arc, hd.full, hidx,
      Nat.zero_add]
  · rw [hflag]
    exact decide_eq_true_iff

/-- A packet is fetched, or dropped by a call. -/
theorem DropSys.Inv.take (hi : s.Inv h u f) {i : Nat} {rest : List Nat}
    (hused : s.rx.rxDescRingUsed = i :: rest) (henable : (s.rx.desc i).enable = false) :
    ∃ h' f', DropSys.Inv { s with
      rx := rxIrqSet (rxTakeHead (rxIrqSet s.rx false) i) true, fetched := s.fetched + 1 } h' u f' := by
  obtain ⟨rfl, f, rfl⟩ := hi.drops.rings.filled_head hused henable
  obtain ⟨hd, hirq, hn⟩ := (hi.drops.irqSet false).takeHead
  refine ⟨_, f, hd.irqSet true, fun hwaits => ?_, hi.dropped⟩
  have htiming := hi.timing (by rw [← rxIrqSet_irqPending s.rx false, ← hirq]; rwa [rxIrqSet_irqPending] at hwaits)
  dsimp only
  rw [rxIrqSet_nDrop, hn, rxIrqSet_nDrop]
  omega

theorem DropSys.Inv.step (hi : s.Inv h u f) {o : DropOp} (hok : DropTimely s o)
    (hs : dropStep s o = some s') : ∃ h' f', s'.Inv h' u f' := by
  cases o with
  | receive data =>
    obtain ⟨rx, hrx, heq⟩ := Option.map_eq_some_iff.mp hs
    obtain ⟨hd, hn, hirq⟩ := hi.drops.receive hrx
    rw [← heq]
    refine ⟨h, f + 1, ?_⟩
    by_cases hwaits : s.rx.irqPending = true
    · rw [if_pos hwaits]
      refine ⟨hd, fun _ => ?_, hi.dropped⟩
      have htiming := hi.timing hwaits
      dsimp only
      rw [hn]
      omega
    · rw [if_neg hwaits]
      refine ⟨hd, fun hraised => ?_, hi.dropped⟩
      rcases hirq hraised with hwaits' | hf
      · exact absurd hwaits' hwaits
      · dsimp only
        rw [hn, hf]
  | interrupt =>
    rw [dropStep] at hs
    split at hs
    · rename_i hserved
      obtain ⟨hwaits, hon⟩ := Bool.and_eq_true_iff.mp hserved
      have hle : s.rx.nDrop ≤ f := by
        have htiming := hi.timing hwaits
        have htimely : s.fetched ≤ s.arrived + 1 := hok
        omega
      have hd : RxCore.Drops { s.rx with irqPending := false } h u f :=
        ⟨hi.drops.rings.congr rfl rfl rfl rfl fun _ => ⟨rfl, rfl⟩, hi.drops.full, hi.drops.on,
          fun hoff => ⟨rfl, (hi.drops.off hoff).2⟩⟩
      obtain ⟨hd, hirq, hn, hdescs⟩ := hd.interrupt hon hle
      rw [← Option.some.inj hs]
      refine ⟨_, _, hd, fun hwaits => ?_, fun d hmem => ?_⟩
      · dsimp only at hwaits
        rw [hirq] at hwaits
        cases hwaits
      · rcases List.mem_append.mp hmem with hmem | hmem
        · exact hi.dropped d hmem
        · exact hdescs d hmem
    · cases hs
  | getPkt pkt =>
    rw [← Option.some.inj hs]
    rcases grspw2GetPkt_cases s.rx pkt with ⟨hsame, htook⟩ | ⟨i, rest, hused, henable, rfl, heq⟩
    · rw [hsame, htook, if_neg Bool.false_ne_true]
      refine ⟨h, f, (hi.drops.irqSet false).irqSet true, fun hwaits => ?_, hi.dropped⟩
      dsimp only at hwaits ⊢
      rw [rxIrqSet_irqPending, rxIrqSet_irqPending] at hwaits
      rw [rxIrqSet_nDrop, rxIrqSet_nDrop]
      exact hi.timing hwaits
    · have hhead : s.rx.filledHead = true := s.rx.filledHead_iff.mpr ⟨i, rest, hused, henable⟩
      rw [heq, hhead, Bool.and_self, if_pos rfl]
      exact hi.take hused henable
  | dropPkt =>
    rw [← Option.some.inj hs]
    rcases grspw2DropPkt_cases s.rx with heq | ⟨i, rest, hused, henable, heq⟩
    · rw [heq]
      refine ⟨h, f, hi.drops.irqSet false, fun hwaits => ?_, hi.dropped⟩
      dsimp only at hwaits ⊢
      rw [rxIrqSet_irqPending] at hwaits
      rw [rxIrqSet_nDrop]
      exact hi.timing hwaits
    · rw [heq]
      exact hi.take hused henable
  | enable nDrop =>
    obtain ⟨r, hr, rfl⟩ := Option.map_eq_some_iff.mp hs
    obtain ⟨hd, hirq⟩ := hi.drops.enable hr
    refine ⟨h, f, hd, fun hwaits => ?_, hi.dropped⟩
    dsimp only at hwaits ⊢
    rcases hirq with heq | hnone
    · rw [heq] at hwaits ⊢
      exact hi.timing hwaits
    · rw [hnone] at hwaits
      cases hwaits
  | disable =>
    have hoff : s.rx.autoDrop = false := hok
    rw [← Option.some.inj hs, grspw2AutoDropDisable, if_pos hoff]
    exact ⟨h, f, hi⟩

theorem DropSys.Init.inv (hs : s.Init) : ∃ h u f, s.Inv h u f := by
  obtain ⟨⟨s₀, hreach, hrx⟩, hfree, hfetched, harrived, hdropped⟩ := hs
  obtain ⟨hq, h, u, f, hfifo⟩ := rxSystem_reachable hreach
  have hr := hfifo.rings
  have hfull : s₀.rx.rxNDesc = u := by
    rw [hrx, hr.free, arc_eq_nil] at hfree
    have hle := hr.used_le
    omega
  refine ⟨h, u, f, ⟨?_, fun hwaits => ?_, ?_⟩⟩
  · rw [hrx]
    refine ⟨hr, hfull, fun hon => ?_, fun _ => ⟨hq.irqPending, hq.interruptEnable⟩⟩
    rw [hq.autoDrop] at hon
    cases hon
  · rw [hrx, hq.irqPending] at hwaits
    cases hwaits
  · rw [hdropped]
    exact fun d hd => absurd hd List.not_mem_nil

end Runs

theorem dropSystem_reachable {s : DropSys} (hs : dropSystem.Reachable DropTimely s) :
    ∃ h u f, s.Inv h u f := by
  refine hs.invariant (I := fun s => ∃ h u f, s.Inv h u f) (fun s (hinit : s.Init) => hinit.inv) ?_
  rintro s o s' ⟨h, u, f, hi⟩ hok hstep
  obtain ⟨h', f', hi'⟩ := hi.step hok hstep
  exact ⟨h', u, f', hi'⟩

/-! ## 5. Steps that spoil it -/

section Spoils

variable {h u f : Nat}

/-- Where fewer descriptors are filled than are added again, one of them is enabled. -/
theorem RxCore.Rings.dropLoop_late : ∀ (f : Nat) {n : Nat} {s : RxCore} {h : Nat}, s.Rings h u f →
    f < n → n ≤ u → ∃ d ∈ rxDropLoopDescs n s, d.enable = true
  | f, 0, _, _, _, hlt, _ => absurd hlt (Nat.not_lt_zero f)
  | f, n + 1, s, h, hr, hlt, hle => by
    rcases hr.head_cases with ⟨hu, -, -⟩ | ⟨rest, hcons, -, henable⟩
    · omega
    · rw [(rxDropLoop_cons hcons n).2]
      cases f with
      | zero => exact ⟨_, List.mem_cons_self, henable⟩
      | succ f =>
        have hcount : RxCore.Rings
            { s with rxBytes := wadd s.rxBytes (s.desc h).pktSize } h u (f + 1) :=
          hr.congr rfl rfl rfl rfl fun _ => ⟨rfl, rfl⟩
        obtain ⟨d, hd, henabled⟩ :=
          RxCore.Rings.dropLoop_late f hcount.readd.1 (Nat.lt_of_succ_lt_succ hlt) (by omega)
        exact ⟨d, List.mem_cons_of_mem _ hd, henabled⟩

/-- **An interrupt served late** adds a descriptor that is still enabled. -/
theorem DropSys.Inv.late {s s' : DropSys} (hi : s.Inv h u f) (hlate : s.arrived + 1 < s.fetched)
    (hs : dropStep s .interrupt = some s') : ¬ s'.Kept := by
  rw [dropStep] at hs
  split at hs
  · rename_i hserved
    obtain ⟨hwaits, hon⟩ := Bool.and_eq_true_iff.mp hserved
    have htiming := hi.timing hwaits
    have hrings : RxCore.Rings { s.rx with irqPending := false } h u f :=
      hi.drops.rings.congr rfl rfl rfl rfl fun _ => ⟨rfl, rfl⟩
    obtain ⟨d, hd, henable⟩ := (rxFlagMove_rings hrings s.rx.nDrop).dropLoop_late f
      (by omega) (Nat.le_of_lt (hi.drops.on hon).1)
    rw [← Option.some.inj hs]
    intro hkept
    rw [hkept.dropped d (List.mem_append_right _ hd)] at henable
    cases henable
  · cases hs

/-- **Disabling leaves the flag set.** -/
theorem DropSys.Inv.disabled {s s' : DropSys} (hi : s.Inv h u f) (hon : s.rx.autoDrop = true)
    (hs : dropStep s .disable = some s') : ¬ s'.Kept := by
  obtain ⟨hlt, hidx, hflag⟩ := hi.drops.on hon
  have hin : s.rx.idxDrop < s.rx.rxNDesc := by
    rw [hi.drops.full, hidx]
    exact circle_lt (Nat.zero_lt_of_lt hlt)
  rw [← Option.some.inj hs, grspw2AutoDropDisable, if_neg (by rw [hon]; exact Bool.noConfusion)]
  intro hkept
  have hclear := hkept.off rfl s.rx.idxDrop hin
  dsimp only at hclear
  rw [hflag, decide_eq_true rfl] at hclear
  cases hclear

end Spoils

/-- **The flag keeps its place**, in every run in which interrupts are served in time and dropping is
not disabled, and a step of another kind spoils it. -/
theorem auto_drop_flag {s : DropSys} (hs : dropSystem.Reachable DropTimely s) :
    s.Kept ∧ ∀ o s', dropStep s o = some s' → (s'.Kept ↔ DropTimely s o) := by
  obtain ⟨h, u, f, hi⟩ := dropSystem_reachable hs
  refine ⟨hi.kept, fun o s' hstep => ⟨fun hkept => ?_, fun hok => ?_⟩⟩
  · by_contra hnot
    cases o with
    | interrupt => exact hi.late (Nat.lt_of_not_le hnot) hstep hkept
    | disable => exact hi.disabled (Bool.eq_true_of_not_eq_false hnot) hstep hkept
    | receive data => exact hnot trivial
    | getPkt pkt => exact hnot trivial
    | dropPkt => exact hnot trivial
    | enable nDrop => exact hnot trivial
  · obtain ⟨h', f', hi'⟩ := hi.step hok hstep
    exact hi'.kept

/-- A core of two descriptors that has been started. -/
def dropSample : DropSys := ⟨grspw2CoreStart rxSample.rx, 0, 0, []⟩

theorem dropSample_init : dropSample.Init := by
  have hinit : rxSystem.Reachable (fun _ _ => True) rxSample := .init rxSample_init
  exact ⟨⟨{ rxSample with rx := grspw2CoreStart rxSample.rx },
    hinit.step (o := .coreStart) trivial rfl, rfl⟩,
    rfl, rfl, rfl, rfl⟩

/-- The second packet raises the interrupt, and the first one is dropped. -/
theorem auto_drop_flag_sample : ∃ s, s ∈ System.stepAll dropStep dropSample
    [.enable 1, .receive [1], .receive [2], .interrupt, .getPkt true] ∧
    s.dropped.length = 1 ∧ s.Kept := by
  have hinit : dropSystem.Reachable DropTimely dropSample := .init dropSample_init
  refine ⟨_, rfl, rfl, (auto_drop_flag (System.Reachable.stepAll
    [.enable 1, .receive [1], .receive [2], .interrupt, .getPkt true] hinit (by decide) rfl)).1⟩

/-- **The flag is left over** when dropping is enabled and disabled again. -/
theorem auto_drop_disabled :
    ¬ ∀ s : DropSys, dropSystem.Reachable (fun _ _ => True) s → s.Kept := by
  intro hall
  have hinit : dropSystem.Reachable (fun _ _ => True) dropSample := .init dropSample_init
  have hdisabled := System.Reachable.stepAll [.enable 1, .disable] hinit
    ⟨trivial, fun _ _ => ⟨trivial, fun _ _ => trivial⟩⟩ rfl
  exact absurd ((hall _ hdisabled).off rfl 1 (by decide)) (by decide)

end FlightOs
