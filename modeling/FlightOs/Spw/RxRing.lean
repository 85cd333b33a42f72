/-
# The ring of receive descriptors

Going round the table from some descriptor on, one meets those in use and then the free ones.  Of those
in use the first ones hold packets, and the core is at the next one (`RxCore.Rings`).  To put the head
to use again is to take it from the front and to add the first free descriptor behind the last one in
use: then the ring begins one place further on, and the order stays that of the core.

`rx_ring_fifo`: in every state of every run without dropping by interrupts the packets are in the ring
in the order they have been received in, and have been taken from it in this order, each one once.
-/
import FlightOs.Spw.RxDesc
import FlightOs.Lib.Rotation

namespace FlightOs

/-! ## 1. The order of the ring -/

/-- Going round the table from `h` on, `u` descriptors are in use, and `f` of them are filled. -/
structure RxCore.Rings (s : RxCore) (h u f : Nat) : Prop where
  head : h < s.rxNDesc
  filled_le : f ≤ u
  used_le : u ≤ s.rxNDesc
  used : s.rxDescRingUsed = arc s.rxNDesc h 0 u
  free : s.rxDescRingFree = arc s.rxNDesc h u (s.rxNDesc - u)
  hw : s.hwDesc = circle s.rxNDesc h f
  enable : ∀ k < s.rxNDesc, (s.desc (circle s.rxNDesc h k)).enable = decide (f ≤ k ∧ k < u)
  wrap : ∀ k < u, circle s.rxNDesc h k = s.rxNDesc - 1 →
    (s.desc (circle s.rxNDesc h k)).wrap = true
  last : ∀ i, (s.desc i).wrap = true → i = s.rxNDesc - 1

/-- The packets in the first `f` descriptors from `h` on. -/
def RxCore.pending (s : RxCore) (h f : Nat) : List (List UInt8) :=
  (arc s.rxNDesc h 0 f).map fun i => (s.desc i).bytes

section Rings

variable {s s' : RxCore} {h u f : Nat}

/-- Nothing is said about the fields that are not of the rings. -/
theorem RxCore.Rings.congr (hr : s.Rings h u f) (hn : s'.rxNDesc = s.rxNDesc)
    (hused : s'.rxDescRingUsed = s.rxDescRingUsed) (hfree : s'.rxDescRingFree = s.rxDescRingFree)
    (hhw : s'.hwDesc = s.hwDesc)
    (hdesc : ∀ i, (s'.desc i).enable = (s.desc i).enable ∧ (s'.desc i).wrap = (s.desc i).wrap) :
    s'.Rings h u f := by
  constructor
  · rw [hn]
    exact hr.head
  · exact hr.filled_le
  · rw [hn]
    exact hr.used_le
  · rw [hused, hn]
    exact hr.used
  · rw [hfree, hn]
    exact hr.free
  · rw [hhw, hn]
    exact hr.hw
  · intro k hk
    rw [hn] at hk ⊢
    rw [(hdesc _).1]
    exact hr.enable k hk
  · intro k hk hlast
    rw [hn] at hlast ⊢
    rw [(hdesc _).2]
    exact hr.wrap k hk hlast
  · intro i hi
    rw [(hdesc i).2] at hi
    rw [hn]
    exact hr.last i hi

/-- The head of the descriptors in use, if there is one, is filled if any one is. -/
theorem RxCore.Rings.head_cases (hr : s.Rings h u f) :
    (u = 0 ∧ f = 0 ∧ s.rxDescRingUsed = []) ∨
      ∃ rest, s.rxDescRingUsed = h :: rest ∧ rest.length + 1 = u ∧
        (s.desc h).enable = decide (f = 0) := by
  cases u with
  | zero =>
    have hf : f = 0 := Nat.le_zero.mp hr.filled_le
    exact .inl ⟨rfl, hf, by rw [hr.used, arc_zero]⟩
  | succ u =>
    have henable := hr.enable 0 (Nat.zero_lt_of_lt hr.head)
    rw [circle_zero hr.head] at henable
    refine .inr ⟨arc s.rxNDesc h 1 u, ?_, by rw [length_arc], ?_⟩
    · rw [hr.used, arc_succ_left, circle_zero hr.head]
    · rw [henable]
      exact decide_eq_decide.mpr ⟨fun h => Nat.le_zero.mp h.1, fun h => ⟨h ▸ Nat.le_refl _, by omega⟩⟩

/-- **A filled head goes to the free ones**: the ring begins one place further on. -/
theorem RxCore.Rings.moveFree (hr : s.Rings h (u + 1) (f + 1)) :
    (grspw2RxDescMoveFree s h).Rings (circle s.rxNDesc h 1) u f := by
  have hpos := Nat.zero_lt_of_lt hr.head
  have hle := hr.used_le
  constructor
  · exact circle_lt hpos
  · exact Nat.le_of_succ_le_succ hr.filled_le
  · exact Nat.le_of_succ_le hle
  · dsimp only [grspw2RxDescMoveFree]
    rw [hr.used, arc_succ_left, circle_zero hr.head, List.erase_cons_head, arc_circle]
  · dsimp only [grspw2RxDescMoveFree]
    have hself : [h] = [circle s.rxNDesc h (u + 1 + (s.rxNDesc - (u + 1)))] := by
      rw [Nat.add_sub_cancel' hle, circle_self hr.head]
    rw [hr.free, arc_circle, hself, ← arc_succ_right, Nat.add_comm 1 u,
      show s.rxNDesc - (u + 1) + 1 = s.rxNDesc - u by omega]
  · dsimp only [grspw2RxDescMoveFree]
    rw [circle_circle, Nat.add_comm 1 f]
    exact hr.hw
  · intro k hk
    dsimp only [grspw2RxDescMoveFree] at hk ⊢
    rw [circle_circle]
    by_cases hround : 1 + k < s.rxNDesc
    · rw [hr.enable _ hround]
      exact decide_eq_decide.mpr (by omega)
    · have hself : circle s.rxNDesc h (1 + k) = circle s.rxNDesc h 0 := by
        rw [show 1 + k = s.rxNDesc by omega, circle_self hr.head, circle_zero hr.head]
      rw [hself, hr.enable 0 hpos]
      exact decide_eq_decide.mpr (by omega)
  · intro k hk hlast
    dsimp only [grspw2RxDescMoveFree] at hlast ⊢
    rw [circle_circle] at hlast ⊢
    exact hr.wrap _ (by omega) hlast
  · exact hr.last

theorem RxCore.pending_succ (hh : h < s.rxNDesc) :
    s.pending h (f + 1) = (s.desc h).bytes :: (grspw2RxDescMoveFree s h).pending
      (circle s.rxNDesc h 1) f := by
  rw [RxCore.pending, arc_succ_left, List.map_cons, circle_zero hh, RxCore.pending]
  dsimp only [grspw2RxDescMoveFree]
  rw [arc_circle]

/-- The descriptor that is put to use is the one after those in use. -/
theorem RxCore.Rings.add_eq (hr : s.Rings h u f) (hu : u < s.rxNDesc) :
    grspw2RxDescAdd s = (0, { s with
      desc := Function.update s.desc (circle s.rxNDesc h u) ((s.desc (circle s.rxNDesc h u)).activate
        (decide (circle s.rxNDesc h u = s.rxNDesc - 1)))
      rxDescRingFree := arc s.rxNDesc h (u + 1) (s.rxNDesc - (u + 1))
      rxDescRingUsed := arc s.rxNDesc h 0 (u + 1) }) := by
  have hfree : s.rxDescRingFree =
      circle s.rxNDesc h u :: arc s.rxNDesc h (u + 1) (s.rxNDesc - (u + 1)) := by
    rw [hr.free, ← arc_succ_left]
    exact congrArg _ (by omega)
  have hused : s.rxDescRingUsed ++ [circle s.rxNDesc h u] = arc s.rxNDesc h 0 (u + 1) := by
    rw [hr.used, arc_succ_right, Nat.zero_add]
  rw [grspw2RxDescAdd, hfree]
  dsimp only
  rw [hused]

theorem RxCore.Rings.add (hr : s.Rings h u f) (hu : u < s.rxNDesc) :
    (grspw2RxDescAdd s).1 = 0 ∧ (grspw2RxDescAdd s).2.Rings h (u + 1) f := by
  rw [hr.add_eq hu]
  refine ⟨rfl, hr.head, Nat.le_succ_of_le hr.filled_le, hu, rfl, rfl, hr.hw, ?_, ?_, ?_⟩
  · intro k hk
    dsimp only
    by_cases hku : k = u
    · rw [hku, Function.update_self]
      exact (decide_eq_true ⟨hr.filled_le, Nat.lt_succ_self u⟩).symm
    · rw [Function.update_of_ne fun heq => hku ((circle_inj hk hu).mp heq), hr.enable k hk]
      exact decide_eq_decide.mpr (by omega)
  · intro k hk hlast
    dsimp only at hlast ⊢
    by_cases hku : k = u
    · rw [hku] at hlast ⊢
      rw [Function.update_self, RxDesc.activate, decide_eq_true hlast, Bool.true_or]
    · rw [Function.update_of_ne fun heq => hku ((circle_inj (by omega) hu).mp heq)]
      exact hr.wrap k (by omega) hlast
  · intro i hi
    dsimp only at hi
    by_cases hiu : i = circle s.rxNDesc h u
    · rw [hiu, Function.update_self, RxDesc.activate] at hi
      rcases Bool.or_eq_true_iff.mp hi with hi | hi
      · rw [hiu]
        exact of_decide_eq_true hi
      · rw [hiu]
        exact hr.last _ hi
    · rw [Function.update_of_ne hiu] at hi
      exact hr.last i hi

theorem RxCore.Rings.pending_add (hr : s.Rings h u f) (hu : u < s.rxNDesc) :
    (grspw2RxDescAdd s).2.pending h f = s.pending h f := by
  rw [hr.add_eq hu, RxCore.pending, RxCore.pending]
  refine List.map_congr_left fun i hi => ?_
  obtain ⟨k, hk, rfl⟩ := mem_arc.mp hi
  have hne : circle s.rxNDesc h (0 + k) ≠ circle s.rxNDesc h u := by
    have hle := hr.filled_le
    exact fun heq => absurd ((circle_inj (by omega) hu).mp heq) (by omega)
  dsimp only
  rw [Function.update_of_ne hne]

/-- **The head is put to use again**: the order of the ring stays, and the oldest packet leaves it. -/
theorem RxCore.Rings.readd (hr : s.Rings h u (f + 1)) :
    (grspw2RxDescReadd s h).2.Rings (circle s.rxNDesc h 1) u f ∧
      s.pending h (f + 1) = (s.desc h).bytes ::
        (grspw2RxDescReadd s h).2.pending (circle s.rxNDesc h 1) f := by
  obtain ⟨u, rfl⟩ := Nat.exists_eq_add_of_lt (Nat.lt_of_lt_of_le (Nat.zero_lt_succ f) hr.filled_le)
  rw [Nat.zero_add] at hr ⊢
  have hfree := hr.moveFree
  have hu : u < (grspw2RxDescMoveFree s h).rxNDesc := hr.used_le
  refine ⟨(hfree.add hu).2, ?_⟩
  rw [RxCore.pending_succ hr.head, grspw2RxDescReadd, hfree.pending_add hu]

/-- Adding all the descriptors changes neither what is pending nor where the ring begins. -/
theorem RxCore.Rings.addAll : ∀ (n : Nat) {s : RxCore} {u : Nat}, s.Rings h u f →
    ∃ u', (rxDescAddAll n s).Rings h u' f ∧ (rxDescAddAll n s).pending h f = s.pending h f
  | 0, _, u, hr => ⟨u, hr, rfl⟩
  | n + 1, s, u, hr => by
    by_cases hu : u < s.rxNDesc
    · obtain ⟨hret, hadd⟩ := hr.add hu
      obtain ⟨u', hall, hpending⟩ := RxCore.Rings.addAll n hadd
      refine ⟨u', ?_, ?_⟩
      · rw [rxDescAddAll, if_neg (not_not.mpr hret)]
        exact hall
      · rw [rxDescAddAll, if_neg (not_not.mpr hret), hpending]
        exact hr.pending_add hu
    · have hnone : s.rxDescRingFree = [] := by
        rw [hr.free, Nat.sub_eq_zero_of_le (Nat.le_of_not_lt hu), arc_zero]
      have hsame : rxDescAddAll (n + 1) s = s := by
        rw [rxDescAddAll, grspw2RxDescAdd, hnone]
        rfl
      rw [hsame]
      exact ⟨u, hr, rfl⟩

/-- A descriptor that a packet has been stored in holds that packet. -/
theorem RxDesc.bytes_stored (d : RxDesc) (data : List UInt8) :
    RxDesc.bytes { d with
      enable := false, pktSize := data.length, buf := fun k => data.getD k (d.buf k) } = data := by
  refine List.ext_getElem (by simp [RxDesc.bytes]) fun k hk hk' => ?_
  simp [RxDesc.bytes, hk']

/-- **A packet is received**: it is the last one in the ring. -/
theorem RxCore.Rings.receive (hr : s.Rings h u f) {data : List UInt8}
    (hs : rxReceive s data = some s') :
    s'.Rings h u (f + 1) ∧ s'.pending h (f + 1) = s.pending h f ++ [data] ∧
      data.length ≤ grspw2MaxMtu := by
  have hpos := Nat.zero_lt_of_lt hr.head
  have hle := hr.filled_le
  have hused := hr.used_le
  unfold rxReceive at hs
  dsimp only at hs
  split at hs
  · cases hs
  · rename_i hok
    obtain ⟨hmtu, henable⟩ := not_or.mp hok
    rw [hr.hw] at henable hs
    have hf : f < u := by
      by_contra hfull
      by_cases hround : f < s.rxNDesc
      · rw [hr.enable f hround, decide_eq_false (by omega)] at henable
        exact henable rfl
      · have hself : circle s.rxNDesc h f = circle s.rxNDesc h 0 := by
          rw [show f = s.rxNDesc by omega, circle_self hr.head, circle_zero hr.head]
        rw [hself, hr.enable 0 hpos, decide_eq_false (by omega)] at henable
        exact henable rfl
    have hfn : f < s.rxNDesc := by omega
    have hne : ∀ {k}, k < s.rxNDesc → k ≠ f → circle s.rxNDesc h k ≠ circle s.rxNDesc h f :=
      fun hk hkf heq => hkf ((circle_inj hk hfn).mp heq)
    have hs := Option.some.inj hs
    subst hs
    refine ⟨⟨hr.head, hf, hused, hr.used, hr.free, ?_, ?_, ?_, ?_⟩, ?_, Nat.le_of_not_lt hmtu⟩
    · -- the wrap bit is set on the last descriptor of the table only
      dsimp only
      have hlt : circle s.rxNDesc h f < s.rxNDesc := circle_lt hpos
      have hnext : circle s.rxNDesc h (f + 1) = (circle s.rxNDesc h f + 1) % s.rxNDesc := by
        rw [← circle_circle, circle]
      rw [hnext]
      by_cases hlast : circle s.rxNDesc h f = s.rxNDesc - 1
      · rw [if_pos (hr.wrap f hf hlast), hlast, Nat.sub_add_cancel hpos, Nat.mod_self]
      · rw [if_neg fun hwrap => hlast (hr.last _ hwrap)]
        exact (Nat.mod_eq_of_lt (by omega)).symm
    · intro k hk
      dsimp only
      by_cases hkf : k = f
      · rw [hkf, Function.update_self]
        exact (decide_eq_false (by omega)).symm
      · rw [Function.update_of_ne (hne hk hkf), hr.enable k hk]
        exact decide_eq_decide.mpr (by omega)
    · intro k hk hlast
      dsimp only at hlast ⊢
      by_cases hkf : k = f
      · rw [hkf, Function.update_self]
        exact hr.wrap f hf (hkf ▸ hlast)
      · rw [Function.update_of_ne (hne (by omega) hkf)]
        exact hr.wrap k hk hlast
    · intro i hi
      dsimp only at hi
      by_cases hif : i = circle s.rxNDesc h f
      · rw [hif, Function.update_self] at hi
        rw [hif]
        exact hr.last _ hi
      · rw [Function.update_of_ne hif] at hi
        exact hr.last i hi
    · rw [RxCore.pending, RxCore.pending, arc_succ_right, List.map_append, List.map_singleton]
      dsimp only
      rw [Nat.zero_add, Function.update_self, RxDesc.bytes_stored]
      refine congrArg (· ++ [data]) (List.map_congr_left fun i hi => ?_)
      obtain ⟨k, hk, rfl⟩ := mem_arc.mp hi
      rw [Function.update_of_ne (hne (by omega) (by omega))]

end Rings

theorem grspw2RxDescTableInit_rings (buf : Nat → Nat → UInt8) {tblSize : Nat}
    (pktBuf : Nat) {pktSize : Nat} (strip : Nat) (htbl : 8 ≤ tblSize) (hsize : pktSize ≤ grspw2MaxMtu) :
    (grspw2RxDescTableInit buf tblSize pktBuf pktSize strip).Rings 0 0 0 := by
  have hbit : ∀ k, 25 ≤ k → pktSize.testBit k = false := by
    intro k hk
    refine Nat.testBit_lt_two_pow (Nat.lt_of_lt_of_le ?_ (Nat.pow_le_pow_right (by norm_num) hk))
    exact Nat.lt_of_le_of_lt hsize (by decide)
  have hpos : 0 < min (tblSize / 8) grspw2RxDescriptors := by
    rw [grspw2RxDescriptors]
    omega
  refine ⟨hpos, Nat.le_refl 0, Nat.zero_le _, rfl, ?_, (circle_zero hpos).symm, ?_, ?_, ?_⟩
  · dsimp only [grspw2RxDescTableInit]
    rw [Nat.sub_zero, arc_eq_rotate, List.rotate_zero]
  · intro k _
    dsimp only [grspw2RxDescTableInit]
    rw [hbit 25 (by decide), decide_eq_false (by omega)]
  · intro k hk
    exact absurd hk (Nat.not_lt_zero k)
  · intro i hi
    dsimp only [grspw2RxDescTableInit] at hi
    rw [hbit 26 (by decide)] at hi
    cases hi

/-! ## 2. What the calls leave alone -/

/-- What a descriptor keeps when it is put to use, and what the core keeps. -/
structure RxCore.Framed (s s' : RxCore) : Prop where
  rxNDesc : s'.rxNDesc = s.rxNDesc
  stripHdrBytes : s'.stripHdrBytes = s.stripHdrBytes
  autoDrop : s'.autoDrop = s.autoDrop
  nDrop : s'.nDrop = s.nDrop
  idxDrop : s'.idxDrop = s.idxDrop
  rxIrq : s'.rxIrq = s.rxIrq
  desc : ∀ i, (s'.desc i).interruptEnable = (s.desc i).interruptEnable ∧
    (s'.desc i).pktAddr = (s.desc i).pktAddr
  irqPending : (∀ i, (s.desc i).interruptEnable = false) → s'.irqPending = s.irqPending

theorem RxCore.Framed.refl (s : RxCore) : s.Framed s :=
  ⟨rfl, rfl, rfl, rfl, rfl, rfl, fun _ => ⟨rfl, rfl⟩, fun _ => rfl⟩

theorem RxCore.Framed.trans {s s' s'' : RxCore} (h : s.Framed s') (h' : s'.Framed s'') :
    s.Framed s'' where
  rxNDesc := h'.rxNDesc.trans h.rxNDesc
  stripHdrBytes := h'.stripHdrBytes.trans h.stripHdrBytes
  autoDrop := h'.autoDrop.trans h.autoDrop
  nDrop := h'.nDrop.trans h.nDrop
  idxDrop := h'.idxDrop.trans h.idxDrop
  rxIrq := h'.rxIrq.trans h.rxIrq
  desc i := ⟨(h'.desc i).1.trans (h.desc i).1, (h'.desc i).2.trans (h.desc i).2⟩
  irqPending hoff :=
    (h'.irqPending fun i => (h.desc i).1.trans (hoff i)).trans (h.irqPending hoff)

/-- The bytes are counted. -/
theorem RxCore.framed_count (s : RxCore) (rxBytes : Nat) : s.Framed { s with rxBytes := rxBytes } :=
  ⟨rfl, rfl, rfl, rfl, rfl, rfl, fun _ => ⟨rfl, rfl⟩, fun _ => rfl⟩

/-- One descriptor is written, but for these fields. -/
theorem RxCore.framed_update (s : RxCore) {i : Nat} {d : RxDesc}
    (hirq : d.interruptEnable = (s.desc i).interruptEnable) (haddr : d.pktAddr = (s.desc i).pktAddr)
    (j : Nat) : (Function.update s.desc i d j).interruptEnable = (s.desc j).interruptEnable ∧
      (Function.update s.desc i d j).pktAddr = (s.desc j).pktAddr := by
  by_cases hji : j = i
  · rw [hji, Function.update_self]
    exact ⟨hirq, haddr⟩
  · rw [Function.update_of_ne hji]
    exact ⟨rfl, rfl⟩

theorem grspw2RxDescAdd_framed (s : RxCore) : s.Framed (grspw2RxDescAdd s).2 := by
  unfold grspw2RxDescAdd
  split
  · exact .refl s
  · exact ⟨rfl, rfl, rfl, rfl, rfl, rfl, s.framed_update rfl rfl, fun _ => rfl⟩

theorem grspw2RxDescMoveFree_framed (s : RxCore) (i : Nat) : s.Framed (grspw2RxDescMoveFree s i) :=
  ⟨rfl, rfl, rfl, rfl, rfl, rfl, fun _ => ⟨rfl, rfl⟩, fun _ => rfl⟩

theorem grspw2RxDescReadd_framed (s : RxCore) (i : Nat) : s.Framed (grspw2RxDescReadd s i).2 :=
  (grspw2RxDescMoveFree_framed s i).trans (grspw2RxDescAdd_framed _)

theorem rxDescAddAll_framed : ∀ (n : Nat) (s : RxCore), s.Framed (rxDescAddAll n s)
  | 0, s => .refl s
  | n + 1, s => by
    unfold rxDescAddAll
    dsimp only
    split
    · exact grspw2RxDescAdd_framed s
    · exact (grspw2RxDescAdd_framed s).trans (rxDescAddAll_framed n _)

theorem rxReceive_framed {s s' : RxCore} {data : List UInt8} (hs : rxReceive s data = some s') :
    s.Framed s' := by
  unfold rxReceive at hs
  dsimp only at hs
  split at hs
  · cases hs
  · rw [← Option.some.inj hs]
    refine ⟨rfl, rfl, rfl, rfl, rfl, rfl, s.framed_update rfl rfl, fun hoff => ?_⟩
    dsimp only
    rw [hoff, Bool.false_and, Bool.or_false]

/-! ## 3. The order of the packets -/

/-- How a packet has been taken.  The size of a packet shorter than the header that is stripped wraps. -/
def TakenFrom (stripHdrBytes : Nat) : RxTaken → List UInt8 → Prop
  | .got pktSize bytes, p =>
    pktSize = wsub p.length stripHdrBytes ∧ (stripHdrBytes ≤ p.length → bytes = p.drop stripHdrBytes)
  | .dropped, _ => True
  | .routed bytes _, p => bytes = p

/-- The used list and the free one are the table, read round from somewhere; of the used list the first
descriptors are filled, with the packets that have not been taken yet, and the core is at the next one;
the packets received before those have been taken, one after the other. -/
structure RxSys.InOrder (s : RxSys) : Prop where
  rotation : (s.rx.rxDescRingUsed ++ s.rx.rxDescRingFree).IsRotated (List.range s.rx.rxNDesc)
  order : ∃ filled active, s.rx.rxDescRingUsed = filled ++ active ∧
    (∀ i ∈ filled, (s.rx.desc i).enable = false) ∧ (∀ i ∈ active, (s.rx.desc i).enable = true) ∧
    (∀ i ∈ active.head?, i = s.rx.hwDesc) ∧
    filled.map (fun i => (s.rx.desc i).bytes) = s.received.drop s.taken.length
  taken : List.Forall₂ (TakenFrom s.rx.stripHdrBytes) s.taken (s.received.take s.taken.length)

/-- The invariant: the packets pending are those not taken. -/
structure RxSys.Fifo (s : RxSys) (h u f : Nat) : Prop where
  rings : s.rx.Rings h u f
  pending : s.received.drop s.taken.length = s.rx.pending h f
  taken : List.Forall₂ (TakenFrom s.rx.stripHdrBytes) s.taken (s.received.take s.taken.length)
  mtu : ∀ p ∈ s.received, p.length ≤ grspw2MaxMtu

section Fifo

variable {s s' : RxSys} {h u f : Nat}

theorem RxSys.Fifo.inOrder (hi : s.Fifo h u f) : s.InOrder := by
  have hr := hi.rings
  have hle := hr.filled_le
  have hused := hr.used_le
  refine ⟨?_, ⟨arc s.rx.rxNDesc h 0 f, arc s.rx.rxNDesc h f (u - f), ?_, ?_, ?_, ?_,
    hi.pending.symm⟩, hi.taken⟩
  · have hall := arc_append (n := s.rx.rxNDesc) (h := h) (j := 0) (m := u) (l := s.rx.rxNDesc - u)
    rw [Nat.zero_add, Nat.add_sub_cancel' hused] at hall
    rw [hr.used, hr.free, hall]
    exact arc_isRotated
  · have hall := arc_append (n := s.rx.rxNDesc) (h := h) (j := 0) (m := f) (l := u - f)
    rw [Nat.zero_add, Nat.add_sub_cancel' hle] at hall
    rw [hr.used, hall]
  · intro i hmem
    obtain ⟨k, hk, rfl⟩ := mem_arc.mp hmem
    rw [hr.enable _ (by omega), decide_eq_false (by omega)]
  · intro i hmem
    obtain ⟨k, hk, rfl⟩ := mem_arc.mp hmem
    rw [hr.enable _ (by omega), decide_eq_true (by omega)]
  · intro i hmem
    cases hd : u - f with
    | zero =>
      rw [hd, arc_zero] at hmem
      cases hmem
    | succ d =>
      rw [hd, arc_succ_left] at hmem
      rw [hr.hw]
      exact (Option.some.inj hmem).symm

/-- No more has been taken than received. -/
theorem RxSys.Fifo.taken_le (hi : s.Fifo h u f) : s.taken.length ≤ s.received.length := by
  have hlen := hi.taken.length_eq
  rw [List.length_take] at hlen
  omega

theorem take_succ_of_drop {α : Type} {l rest : List α} {n : Nat} {x : α} (h : l.drop n = x :: rest) :
    l.take (n + 1) = l.take n ++ [x] := by
  rw [List.take_add, h, List.take_succ_cons, List.take_zero]

/-- **The head is taken**, and put to use again. -/
theorem RxSys.Fifo.take (hi : s.Fifo h u (f + 1)) {t : RxTaken}
    (ht : TakenFrom s.rx.stripHdrBytes t (s.rx.desc h).bytes) (rxBytes : Nat)
    (hrx : s'.rx = (grspw2RxDescReadd { s.rx with rxBytes := rxBytes } h).2)
    (hreceived : s'.received = s.received) (htaken : s'.taken = s.taken ++ [t]) :
    s'.Fifo (circle s.rx.rxNDesc h 1) u f := by
  have hr : RxCore.Rings { s.rx with rxBytes := rxBytes } h u (f + 1) :=
    hi.rings.congr rfl rfl rfl rfl fun _ => ⟨rfl, rfl⟩
  obtain ⟨hrings, hpending⟩ := hr.readd
  have hframe := grspw2RxDescReadd_framed { s.rx with rxBytes := rxBytes } h
  have hnext := hi.pending.trans hpending
  constructor
  · rw [hrx]
    exact hrings
  · rw [hreceived, htaken, List.length_append, ← List.drop_drop, hnext, hrx]
    rfl
  · rw [hrx, hframe.stripHdrBytes, hreceived, htaken, List.length_append, List.length_singleton,
      take_succ_of_drop hnext]
    exact List.rel_append hi.taken (.cons ht .nil)
  · rw [hreceived]
    exact hi.mtu

theorem RxSys.Fifo.receive (hi : s.Fifo h u f) {data : List UInt8} {rx : RxCore}
    (hrx : rxReceive s.rx data = some rx) :
    RxSys.Fifo { s with rx := rx, received := s.received ++ [data] } h u (f + 1) := by
  obtain ⟨hrings, hpending, hmtu⟩ := hi.rings.receive hrx
  have hstrip := (rxReceive_framed hrx).stripHdrBytes
  constructor
  · exact hrings
  · dsimp only
    rw [List.drop_append_of_le_length hi.taken_le, hi.pending, hpending]
  · dsimp only
    rw [hstrip, List.take_append_of_le_length hi.taken_le]
    exact hi.taken
  · intro p hp
    rcases List.mem_append.mp hp with hp | hp
    · exact hi.mtu p hp
    · rw [List.mem_singleton.mp hp]
      exact hmtu

theorem RxDesc.length_bytes (d : RxDesc) : d.bytes.length = d.pktSize := by
  rw [RxDesc.bytes, List.length_map, List.length_range]

/-- The packet at the head is one of those received. -/
theorem RxSys.Fifo.head_mem (hi : s.Fifo h u (f + 1)) : (s.rx.desc h).bytes ∈ s.received := by
  refine List.mem_of_mem_drop (i := s.taken.length) ?_
  rw [hi.pending, RxCore.pending_succ hi.rings.head]
  exact List.mem_cons_self

theorem RxSys.Fifo.head_size (hi : s.Fifo h u (f + 1)) : (s.rx.desc h).pktSize ≤ grspw2MaxMtu := by
  rw [← RxDesc.length_bytes]
  exact hi.mtu _ hi.head_mem

/-- What `grspw2_get_pkt` copies is the packet without the header. -/
theorem takenFrom_got {d : RxDesc} (strip : Nat) (hsize : d.pktSize < 2 ^ 32) :
    TakenFrom strip (.got (wsub d.pktSize strip)
      ((List.range (wsub d.pktSize strip)).map fun k => d.buf (strip + k))) d.bytes := by
  refine ⟨by rw [d.length_bytes], fun hstrip => ?_⟩
  rw [d.length_bytes] at hstrip
  rw [wsub_of_le hsize hstrip]
  refine List.ext_getElem ?_ fun k hk hk' => ?_
  · rw [List.length_map, List.length_range, List.length_drop, d.length_bytes]
  · simp only [RxDesc.bytes, List.getElem_map, List.getElem_range, List.getElem_drop]

theorem RxCore.filledHead_iff (s : RxCore) :
    s.filledHead = true ↔ ∃ i rest, s.rxDescRingUsed = i :: rest ∧ (s.desc i).enable = false := by
  unfold RxCore.filledHead
  cases hused : s.rxDescRingUsed with
  | nil => simp
  | cons i rest => simp

theorem rxIrqSet_off {s : RxCore} (hoff : s.autoDrop = false) (on : Bool) : rxIrqSet s on = s := by
  rw [rxIrqSet, hoff]
  rfl

/-- Without dropping, the head is only added again. -/
theorem rxTakeHead_off {s : RxCore} (hoff : s.autoDrop = false) (i : Nat) :
    rxTakeHead s i =
      (grspw2RxDescReadd { s with rxBytes := wadd s.rxBytes (s.desc i).pktSize } i).2 := by
  unfold rxTakeHead
  dsimp only
  rw [(grspw2RxDescReadd_framed _ i).autoDrop, hoff]
  rfl

theorem rxTakeHead_framed {s : RxCore} (hoff : s.autoDrop = false) (i : Nat) :
    s.Framed (rxTakeHead s i) := by
  rw [rxTakeHead_off hoff]
  exact RxCore.Framed.trans (s.framed_count _) (grspw2RxDescReadd_framed _ i)

theorem rxIrqSet_takeHead_off {s : RxCore} (hoff : s.autoDrop = false) (i : Nat) :
    rxIrqSet (rxTakeHead (rxIrqSet s false) i) true = rxTakeHead s i := by
  rw [rxIrqSet_off hoff, rxIrqSet_off ((rxTakeHead_framed hoff i).autoDrop.trans hoff)]

theorem rxIrqSet_kept (s : RxCore) (on : Bool) :
    (rxIrqSet s on).rxDescRingUsed = s.rxDescRingUsed ∧ (rxIrqSet s on).desc = s.desc ∧
      (rxIrqSet s on).stripHdrBytes = s.stripHdrBytes := by
  unfold rxIrqSet
  split <;> exact ⟨rfl, rfl, rfl⟩

/-- What `grspw2_get_pkt` does. -/
theorem grspw2GetPkt_cases (s : RxCore) (pkt : Bool) :
    ((grspw2GetPkt s pkt).1 = rxIrqSet (rxIrqSet s false) true ∧ (pkt && s.filledHead) = false) ∨
    ∃ i rest, s.rxDescRingUsed = i :: rest ∧ (s.desc i).enable = false ∧ pkt = true ∧
      grspw2GetPkt s pkt = (rxIrqSet (rxTakeHead (rxIrqSet s false) i) true,
        wsub (s.desc i).pktSize s.stripHdrBytes,
        (List.range (wsub (s.desc i).pktSize s.stripHdrBytes)).map
          fun k => (s.desc i).buf (s.stripHdrBytes + k)) := by
  obtain ⟨hused, hdesc, hstrip⟩ := rxIrqSet_kept s false
  unfold grspw2GetPkt
  dsimp only
  rw [hused, hdesc, hstrip]
  cases hring : s.rxDescRingUsed with
  | nil => exact .inl ⟨rfl, by simp [RxCore.filledHead, hring]⟩
  | cons i rest =>
    dsimp only
    cases henable : (s.desc i).enable with
    | true =>
      rw [if_pos rfl]
      exact .inl ⟨rfl, by simp [RxCore.filledHead, hring, henable]⟩
    | false =>
      rw [if_neg Bool.false_ne_true]
      cases pkt with
      | false => exact .inl ⟨rfl, rfl⟩
      | true => exact .inr ⟨i, rest, rfl, henable, rfl, by rw [if_neg (by decide)]⟩

/-- What `grspw2_drop_pkt` does. -/
theorem grspw2DropPkt_cases (s : RxCore) :
    grspw2DropPkt s = (rxIrqSet s false, 0) ∨
    ∃ i rest, s.rxDescRingUsed = i :: rest ∧ (s.desc i).enable = false ∧
      grspw2DropPkt s = (rxIrqSet (rxTakeHead (rxIrqSet s false) i) true, 1) := by
  obtain ⟨hused, hdesc, -⟩ := rxIrqSet_kept s false
  unfold grspw2DropPkt
  dsimp only
  rw [hused, hdesc]
  cases hring : s.rxDescRingUsed with
  | nil => exact .inl rfl
  | cons i rest =>
    dsimp only
    cases henable : (s.desc i).enable with
    | true =>
      rw [if_pos rfl]
      exact .inl rfl
    | false => exact .inr ⟨i, rest, rfl, henable, by rw [if_neg Bool.false_ne_true]⟩

/-- What a turn of the loop in `grspw2_route` does. -/
theorem grspw2RouteTurn_cases (s : RxSys) :
    (∃ tx, grspw2RouteTurn s = ({ s with tx := tx }, false)) ∨
    ∃ i rest tx txBuf sent, s.rx.rxDescRingUsed = i :: rest ∧ (s.rx.desc i).enable = false ∧
      grspw2RouteTurn s = ({ s with
        tx := tx, txBuf := txBuf, rx := (grspw2RxDescReadd s.rx i).2
        taken := s.taken ++ [.routed (s.rx.desc i).bytes sent] }, true) := by
  unfold grspw2RouteTurn
  cases hused : s.rx.rxDescRingUsed with
  | nil => exact .inl ⟨s.tx, rfl⟩
  | cons i rest =>
    dsimp only
    split
    · exact .inl ⟨s.tx, rfl⟩
    · rename_i henable
      split
      · exact .inl ⟨_, rfl⟩
      · exact .inr ⟨i, rest, _, _, _, rfl, Bool.eq_false_iff.mpr henable, rfl⟩

/-- A head that is not enabled is filled, and the first one. -/
theorem RxCore.Rings.filled_head {s : RxCore} (hr : s.Rings h u f) {i : Nat} {rest : List Nat}
    (hused : s.rxDescRingUsed = i :: rest) (henable : (s.desc i).enable = false) :
    i = h ∧ ∃ f', f = f' + 1 := by
  rcases hr.head_cases with ⟨-, -, hnil⟩ | ⟨rest', hcons, -, hhead⟩
  · rw [hnil] at hused
    cases hused
  · rw [hcons] at hused
    obtain ⟨rfl, -⟩ := List.cons_eq_cons.mp hused
    rw [hhead] at henable
    exact ⟨rfl, Nat.exists_eq_succ_of_ne_zero (of_decide_eq_false henable)⟩

/-- **A step keeps the order.** -/
theorem RxSys.Fifo.step (hi : s.Fifo h u f) (hoff : s.rx.autoDrop = false) {o : RxOp}
    (hs : rxStep s o = some s') : ∃ h' u' f', s'.Fifo h' u' f' := by
  cases o with
  | coreStart =>
    obtain ⟨u', hrings, hpending⟩ := hi.rings.addAll s.rx.rxNDesc
    have hstrip := (rxDescAddAll_framed s.rx.rxNDesc s.rx).stripHdrBytes
    rw [← Option.some.inj hs]
    refine ⟨h, u', f, hrings, hi.pending.trans hpending.symm, ?_, hi.mtu⟩
    dsimp only [grspw2CoreStart]
    rw [hstrip]
    exact hi.taken
  | receive data =>
    obtain ⟨rx, hrx, rfl⟩ := Option.map_eq_some_iff.mp hs
    exact ⟨h, u, f + 1, hi.receive hrx⟩
  | getPkt pkt =>
    rw [← Option.some.inj hs]
    rcases grspw2GetPkt_cases s.rx pkt with ⟨hsame, htook⟩ | ⟨i, rest, hused, henable, rfl, heq⟩
    · rw [rxIrqSet_off hoff, rxIrqSet_off hoff] at hsame
      simp only [hsame, htook, Bool.false_eq_true, if_false, List.append_nil]
      exact ⟨h, u, f, hi⟩
    · obtain ⟨rfl, f, rfl⟩ := hi.rings.filled_head hused henable
      have hsize := Nat.lt_of_le_of_lt hi.head_size (by decide : grspw2MaxMtu < 2 ^ 32)
      have hhead : s.rx.filledHead = true := s.rx.filledHead_iff.mpr ⟨i, rest, hused, henable⟩
      refine ⟨_, _, _, hi.take (takenFrom_got _ hsize) (wadd s.rx.rxBytes (s.rx.desc i).pktSize)
        ?_ rfl ?_⟩
      · rw [heq]
        exact (rxIrqSet_takeHead_off hoff i).trans (rxTakeHead_off hoff i)
      · simp only [heq, hhead, Bool.and_self, if_true]
  | dropPkt =>
    rw [← Option.some.inj hs]
    rcases grspw2DropPkt_cases s.rx with heq | ⟨i, rest, hused, henable, heq⟩
    · rw [rxIrqSet_off hoff] at heq
      simp only [heq, Nat.zero_ne_one, if_false, List.append_nil]
      exact ⟨h, u, f, hi⟩
    · obtain ⟨rfl, f, rfl⟩ := hi.rings.filled_head hused henable
      refine ⟨_, _, _, hi.take (t := .dropped) trivial (wadd s.rx.rxBytes (s.rx.desc i).pktSize)
        ?_ rfl ?_⟩
      · rw [heq]
        exact (rxIrqSet_takeHead_off hoff i).trans (rxTakeHead_off hoff i)
      · simp only [heq, if_true]
  | routeTurn =>
    rw [← Option.some.inj hs]
    rcases grspw2RouteTurn_cases s with ⟨tx, heq⟩ | ⟨i, rest, tx, txBuf, sent, hused, henable, heq⟩
    · rw [heq]
      exact ⟨h, u, f, hi.rings, hi.pending, hi.taken, hi.mtu⟩
    · obtain ⟨rfl, f, rfl⟩ := hi.rings.filled_head hused henable
      rw [heq]
      exact ⟨_, _, _, hi.take (t := .routed _ sent) rfl s.rx.rxBytes rfl rfl rfl⟩
  | routeEnd =>
    rw [← Option.some.inj hs]
    exact ⟨h, u, f, hi.rings, hi.pending, hi.taken, hi.mtu⟩
  | tx o =>
    rw [← Option.some.inj hs]
    exact ⟨h, u, f, hi.rings, hi.pending, hi.taken, hi.mtu⟩

end Fifo

/-! ## 4. Runs -/

/-- Packets are not dropped by interrupts, and none is pending. -/
structure RxCore.Quiet (s : RxCore) : Prop where
  autoDrop : s.autoDrop = false
  irqPending : s.irqPending = false
  interruptEnable : ∀ i, (s.desc i).interruptEnable = false

theorem RxCore.Quiet.framed {s s' : RxCore} (hq : s.Quiet) (h : s.Framed s') : s'.Quiet :=
  ⟨h.autoDrop.trans hq.autoDrop, (h.irqPending hq.interruptEnable).trans hq.irqPending,
    fun i => (h.desc i).1.trans (hq.interruptEnable i)⟩

/-- A step without dropping. -/
theorem rxStep_framed {s s' : RxSys} (hoff : s.rx.autoDrop = false) {o : RxOp}
    (hs : rxStep s o = some s') : s.rx.Framed s'.rx := by
  cases o with
  | coreStart =>
    rw [← Option.some.inj hs]
    exact rxDescAddAll_framed _ s.rx
  | receive data =>
    obtain ⟨rx, hrx, rfl⟩ := Option.map_eq_some_iff.mp hs
    exact rxReceive_framed hrx
  | getPkt pkt =>
    rw [← Option.some.inj hs]
    dsimp only
    rcases grspw2GetPkt_cases s.rx pkt with ⟨hsame, -⟩ | ⟨i, -, -, -, -, heq⟩
    · rw [hsame, rxIrqSet_off hoff, rxIrqSet_off hoff]
      exact .refl s.rx
    · rw [heq, rxIrqSet_takeHead_off hoff]
      exact rxTakeHead_framed hoff i
  | dropPkt =>
    rw [← Option.some.inj hs]
    dsimp only
    rcases grspw2DropPkt_cases s.rx with heq | ⟨i, -, -, -, heq⟩
    · rw [heq, rxIrqSet_off hoff]
      exact .refl s.rx
    · rw [heq, rxIrqSet_takeHead_off hoff]
      exact rxTakeHead_framed hoff i
  | routeTurn =>
    rw [← Option.some.inj hs]
    rcases grspw2RouteTurn_cases s with ⟨tx, heq⟩ | ⟨i, -, tx, txBuf, sent, -, -, heq⟩
    · rw [heq]
      exact .refl s.rx
    · rw [heq]
      exact grspw2RxDescReadd_framed _ i
  | routeEnd =>
    rw [← Option.some.inj hs]
    exact .refl s.rx
  | tx o =>
    rw [← Option.some.inj hs]
    exact .refl s.rx

theorem RxSys.Init.quiet {s : RxSys} (hs : s.Init) : s.rx.Quiet := by
  obtain ⟨buf, tblSize, pktBuf, pktSize, strip, -, hsize, -, -, -, hrx, -, -⟩ := hs
  rw [hrx]
  refine ⟨rfl, rfl, fun i => Nat.testBit_lt_two_pow (Nat.lt_of_le_of_lt hsize (by decide))⟩

theorem RxSys.Init.fifo {s : RxSys} (hs : s.Init) : s.Fifo 0 0 0 := by
  obtain ⟨buf, tblSize, pktBuf, pktSize, strip, htbl, hsize, -, -, -, hrx, hreceived, htaken⟩ := hs
  constructor
  · rw [hrx]
    exact grspw2RxDescTableInit_rings buf pktBuf strip htbl hsize
  · rw [hreceived]
    exact List.drop_nil
  · rw [htaken]
    exact .nil
  · rw [hreceived]
    exact fun p hp => absurd hp List.not_mem_nil

/-- A call of `grspw2_route` is a run of turns, and their end. -/
theorem rxRouteLoop_reachable : ∀ (n : Nat) {s : RxSys},
    rxSystem.Reachable (fun _ _ => True) s → rxSystem.Reachable (fun _ _ => True) (rxRouteLoop n s)
  | 0, _, hs => hs
  | n + 1, s, hs => by
    have hturn : rxSystem.Reachable (fun _ _ => True) (grspw2RouteTurn s).1 :=
      hs.step (o := .routeTurn) trivial rfl
    unfold rxRouteLoop
    dsimp only
    split
    · exact hturn
    · exact rxRouteLoop_reachable n hturn

/-- Every state of every run. -/
theorem rxSystem_reachable {s : RxSys} {ok : RxSys → RxOp → Prop} (hs : rxSystem.Reachable ok s) :
    s.rx.Quiet ∧ ∃ h u f, s.Fifo h u f := by
  refine hs.invariant (I := fun s => s.rx.Quiet ∧ ∃ h u f, s.Fifo h u f) ?_ ?_
  · exact fun s hinit => ⟨hinit.quiet, 0, 0, 0, hinit.fifo⟩
  · rintro s o s' ⟨hq, h, u, f, hi⟩ - hstep
    exact ⟨hq.framed (rxStep_framed hq.autoDrop hstep), hi.step hq.autoDrop hstep⟩

/-- **Packets are taken in the order they have been received in.**  In every state of every run of
starting, receiving, taking, dropping and routing, the ring is in order. -/
theorem rx_ring_fifo {s : RxSys} (hs : rxSystem.Reachable (fun _ _ => True) s) : s.InOrder := by
  obtain ⟨-, h, u, f, hi⟩ := rxSystem_reachable hs
  exact hi.inOrder

/-- A core of two descriptors, before it is started, and a target of one. -/
def rxSample : RxSys where
  rx := grspw2RxDescTableInit (fun _ _ => 0) 16 0x40000000 8 0
  tx := grspw2TxDescTableInit 16 8
  txBuf := fun _ _ => 0
  received := []
  taken := []

theorem rxSample_init : rxSample.Init :=
  ⟨fun _ _ => 0, 16, 0x40000000, 8, 0, by decide, by decide, by decide, by decide, by decide, rfl, rfl, rfl⟩

/-- Of two packets the first is fetched, and the second routed. -/
def rxSampleOps : List RxOp := [.coreStart, .receive [1, 2], .receive [3], .getPkt true, .routeTurn]

theorem rx_ring_fifo_sample : ∃ s, s ∈ System.stepAll rxStep rxSample rxSampleOps ∧
    s.taken = [.got 2 [1, 2], .routed [3] ⟨0, [3], false, false⟩] ∧ s.InOrder := by
  refine ⟨_, rfl, by decide, ?_⟩
  refine rx_ring_fifo (System.Reachable.stepAll rxSampleOps (.init rxSample_init) ?_ rfl)
  simp only [rxSampleOps, System.AllowedAll, Option.mem_def, implies_true, and_self]

end FlightOs
