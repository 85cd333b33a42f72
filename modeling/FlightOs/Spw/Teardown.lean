/-
# Disabling routing, and dropping

`grspw2_enable_routing` and `grspw2_auto_drop_enable` request the interrupt of the core for a handler,
with the core as its argument, and set interrupt flags on receive descriptors.
`grspw2_disable_routing` and `grspw2_auto_drop_disable` are to undo both:
* the former frees the handler with the target as its argument, which was the core; it clears all flags;
* the latter frees the handler with the argument it has, but leaves the flag where it is.

`grspw2_teardown_iff`: what has been enabled is undone, with any packets in between, if and only if it
is routing, and no handler had been registered or the target is the core itself and the line of its
interrupt is found.
-/
import FlightOs.Irq.Request
import FlightOs.Spw.AutoDrop
import FlightOs.Spw.Routing

namespace FlightOs

/-! ## 1. Enabling and disabling -/

/-- A core, its interrupt, and the handlers for it. -/
structure Grspw2Port where
  cfg : Nat
  coreIrq : Nat
  routeCall : Nat
  autoDropCall : Nat
  routeCall_ne : routeCall ≠ 0
  autoDropCall_ne : autoDropCall ≠ 0
  apart : routeCall ≠ autoDropCall

/-- The core with the one it routes to, `route[0]`, and the registered handlers. -/
structure SpwSys where
  irl : IrlTables
  spw : RxSys
  route : Nat

/-- The loop that clears the interrupt flag on all descriptors of the table. -/
def rxDescIrqNone : Nat → RxCore → RxCore
  | 0, s => s
  | n + 1, s => rxDescIrq (rxDescIrqNone n s) n false

section Calls

variable (leon : LeonModel) (k : Grspw2Port) (s : SpwSys) (cpu : Nat)

/-- `grspw2_enable_routing`, `tx` being the sending side of `route`.  What the request returns is not
looked at. -/
def spwEnableRouting (route : Nat) (tx : TxCore) (txBuf : Nat → Nat → UInt8) : Option (Int × SpwSys) :=
  (irqRequest leon s.irl .now ⟨k.coreIrq, k.routeCall, k.cfg, cpu⟩).map fun r =>
    (0, ⟨r.2, s.spw.enableRouting tx txBuf, route⟩)

/-- `grspw2_disable_routing` -/
def spwDisableRouting : Option (Int × SpwSys) :=
  (irqFree s.irl ⟨k.coreIrq, k.routeCall, s.route, cpu⟩).map fun irl =>
    let rx := rxDescIrqNone s.spw.rx.rxNDesc s.spw.rx
    (0, { s with irl := irl, spw := { s.spw with rx := { rx with rxIrq := false } } })

/-- `grspw2_auto_drop_enable` -/
def spwAutoDropEnable (nDrop : Nat) : Option (Int × SpwSys) :=
  (grspw2AutoDropEnable s.spw.rx nDrop).bind fun r =>
    if r.1 ≠ 0 then some (r.1, s)
    else
      (irqRequest leon s.irl .now ⟨k.coreIrq, k.autoDropCall, k.cfg, cpu⟩).map fun q =>
        (q.1, { s with irl := q.2, spw := { s.spw with rx := r.2 } })

/-- `grspw2_auto_drop_disable` -/
def spwAutoDropDisable : Option (Int × SpwSys) :=
  let r := grspw2AutoDropDisable s.spw.rx
  if r.1 ≠ 0 then some (r.1, s)
  else
    (irqFree s.irl ⟨k.coreIrq, k.autoDropCall, k.cfg, cpu⟩).map fun irl =>
      (0, { s with irl := irl, spw := { s.spw with rx := r.2 } })

end Calls

/-- What is enabled, and disabled again. -/
inductive SpwUse
  | routing (route : Nat) (tx : TxCore) (txBuf : Nat → Nat → UInt8)
  | autoDrop (nDrop : Nat)

def SpwUse.enable (leon : LeonModel) (k : Grspw2Port) (s : SpwSys) (cpu : Nat) :
    SpwUse → Option (Int × SpwSys)
  | .routing route tx txBuf => spwEnableRouting leon k s cpu route tx txBuf
  | .autoDrop nDrop => spwAutoDropEnable leon k s cpu nDrop

def SpwUse.disable (k : Grspw2Port) (s : SpwSys) (cpu : Nat) : SpwUse → Option (Int × SpwSys)
  | .routing _ _ _ => spwDisableRouting k s cpu
  | .autoDrop _ => spwAutoDropDisable k s cpu

/-- What happens in between: packets are received, fetched, dropped or routed, by calls; or by the
interrupt, if the handler for it has been registered. -/
inductive SpwOp
  | rx (o : RxOp)
  | interrupt

/-- A step in between.  A packet that finds no enabled descriptor waits. -/
def spwStep (k : Grspw2Port) (s : SpwSys) : SpwOp → SpwSys
  | .rx o => { s with spw := (rxStep s.spw o).getD s.spw }
  | .interrupt =>
    if s.spw.rx.irqPending = true ∧ s.irl.Has k.coreIrq k.autoDropCall k.cfg then
      { s with spw := { s.spw with rx := grspw2AutoDropCall { s.spw.rx with irqPending := false } } }
    else s

/-- It is enabled, and disabled again, the calls on any processors. -/
def SpwUse.run (leon : LeonModel) (k : Grspw2Port) (s : SpwSys) (use : SpwUse) (ops : List SpwOp)
    (cpu cpu' : Nat) : Option SpwSys :=
  ((use.enable leon k s cpu).bind fun r => use.disable k (ops.foldl (spwStep k) r.2) cpu').map Prod.snd

/-- A core without routing, and without dropping; the descriptors in use are those of its table. -/
structure SpwSys.Off (leon : LeonModel) (k : Grspw2Port) (s : SpwSys) : Prop where
  irl : IrlInv leon s.irl
  used : ∀ i ∈ s.spw.rx.rxDescRingUsed, i < s.spw.rx.rxNDesc
  autoDrop : s.spw.rx.autoDrop = false
  noRoute : ¬ s.irl.Has k.coreIrq k.routeCall k.cfg
  noDrop : ¬ s.irl.Has k.coreIrq k.autoDropCall k.cfg

/-- No handler is registered for the core, and no interrupt flag is set. -/
structure SpwSys.Clean (k : Grspw2Port) (s : SpwSys) : Prop where
  noRoute : ¬ s.irl.Has k.coreIrq k.routeCall k.cfg
  noDrop : ¬ s.irl.Has k.coreIrq k.autoDropCall k.cfg
  flags : ∀ i < s.spw.rx.rxNDesc, (s.spw.rx.desc i).interruptEnable = false

instance (k : Grspw2Port) (s : SpwSys) : Decidable (s.Clean k) :=
  decidable_of_iff (¬ s.irl.Has k.coreIrq k.routeCall k.cfg ∧
      ¬ s.irl.Has k.coreIrq k.autoDropCall k.cfg ∧
        ∀ i < s.spw.rx.rxNDesc, (s.spw.rx.desc i).interruptEnable = false)
    ⟨fun h => ⟨h.1, h.2.1, h.2.2⟩, fun h => ⟨h.noRoute, h.noDrop, h.flags⟩⟩

/-- **What is undone**: routing that has not registered a handler, or routing of a core to itself. -/
def SpwUse.Undone (leon : LeonModel) (k : Grspw2Port) (s : SpwSys) : SpwUse → Prop
  | .routing route _ _ =>
    (s.irl.pool = [] ∨ irlSize + eirlSize < k.coreIrq) ∨ (route = k.cfg ∧ LineFound leon k.coreIrq)
  | .autoDrop _ => False

/-! ## 2. The flags -/

/-- The flag is set, on a descriptor of the table. -/
structure RxCore.FlagSet (s : RxCore) : Prop where
  autoDrop : s.autoDrop = true
  nDrop : s.nDrop < s.rxNDesc
  idxDrop : s.idxDrop < s.rxNDesc
  flag : (s.desc s.idxDrop).interruptEnable = true

section Flags

variable {s s' : RxCore}

theorem RxCore.FlagSet.framed (hf : s.FlagSet) (h : s.Framed s') : s'.FlagSet where
  autoDrop := h.autoDrop.trans hf.autoDrop
  nDrop := by
    rw [h.nDrop, h.rxNDesc]
    exact hf.nDrop
  idxDrop := by
    rw [h.idxDrop, h.rxNDesc]
    exact hf.idxDrop
  flag := by
    rw [h.idxDrop, (h.desc _).1]
    exact hf.flag

theorem rxIdxWrap_lt {i n : Nat} (hi : i < s.rxNDesc) (hn : n ≤ s.rxNDesc) :
    rxIdxWrap s (i + n) < s.rxNDesc := by
  unfold rxIdxWrap
  split <;> omega

/-- The flag is moved, and still set. -/
theorem RxCore.FlagSet.move (hf : s.FlagSet) {n : Nat} (hn : n ≤ s.rxNDesc) :
    (rxFlagMove s n).FlagSet where
  autoDrop := hf.autoDrop
  nDrop := hf.nDrop
  idxDrop := rxIdxWrap_lt hf.idxDrop hn
  flag := by
    dsimp only [rxFlagMove, rxDescIrq]
    rw [Function.update_self]

theorem RxCore.FlagSet.irqSet (hf : s.FlagSet) (on : Bool) : (rxIrqSet s on).FlagSet := by
  rw [rxIrqSet, if_pos hf.autoDrop]
  exact ⟨hf.autoDrop, hf.nDrop, hf.idxDrop, hf.flag⟩

theorem RxCore.FlagSet.takeHead (hf : s.FlagSet) (i : Nat) : (rxTakeHead s i).FlagSet := by
  have hadded : (grspw2RxDescReadd { s with rxBytes := wadd s.rxBytes (s.desc i).pktSize } i).2.FlagSet :=
    hf.framed (RxCore.Framed.trans (s.framed_count _) (grspw2RxDescReadd_framed _ i))
  unfold rxTakeHead
  dsimp only
  rw [if_pos hadded.autoDrop, rxDropAdvance_eq]
  exact hadded.move (Nat.zero_lt_of_lt hadded.nDrop)

theorem rxDropLoop_framed : ∀ (n : Nat) (s : RxCore), s.Framed (rxDropLoop n s)
  | 0, s => .refl s
  | n + 1, s => by
    unfold rxDropLoop
    split
    · exact .refl s
    · exact ((s.framed_count _).trans (grspw2RxDescReadd_framed _ _)).trans (rxDropLoop_framed n _)

theorem RxCore.FlagSet.interrupt (hf : s.FlagSet) :
    (grspw2AutoDropCall { s with irqPending := false }).FlagSet := by
  have hs : RxCore.FlagSet { s with irqPending := false } :=
    ⟨hf.autoDrop, hf.nDrop, hf.idxDrop, hf.flag⟩
  rw [grspw2AutoDropCall_eq]
  exact (hs.move (Nat.le_of_lt hs.nDrop)).framed (rxDropLoop_framed _ _)

/-- What is done with packets leaves the flag set. -/
theorem RxCore.FlagSet.rxStep {s s' : RxSys} (hf : s.rx.FlagSet) {o : RxOp} (hs : rxStep s o = some s') :
    s'.rx.FlagSet := by
  cases o with
  | coreStart =>
    rw [← Option.some.inj hs]
    exact hf.framed (rxDescAddAll_framed _ s.rx)
  | receive data =>
    obtain ⟨rx, hrx, rfl⟩ := Option.map_eq_some_iff.mp hs
    exact hf.framed (rxReceive_framed hrx)
  | getPkt pkt =>
    rw [← Option.some.inj hs]
    dsimp only
    rcases grspw2GetPkt_cases s.rx pkt with ⟨hsame, -⟩ | ⟨i, -, -, -, -, heq⟩
    · rw [hsame]
      exact (hf.irqSet false).irqSet true
    · rw [heq]
      exact ((hf.irqSet false).takeHead i).irqSet true
  | dropPkt =>
    rw [← Option.some.inj hs]
    dsimp only
    rcases grspw2DropPkt_cases s.rx with heq | ⟨i, -, -, -, heq⟩
    · rw [heq]
      exact hf.irqSet false
    · rw [heq]
      exact ((hf.irqSet false).takeHead i).irqSet true
  | routeTurn =>
    rw [← Option.some.inj hs]
    rcases grspw2RouteTurn_cases s with ⟨tx, heq⟩ | ⟨i, -, tx, txBuf, sent, -, -, heq⟩
    · rw [heq]
      exact hf
    · rw [heq]
      exact hf.framed (grspw2RxDescReadd_framed _ i)
  | routeEnd =>
    rw [← Option.some.inj hs]
    exact hf
  | tx o =>
    rw [← Option.some.inj hs]
    exact hf

/-- Enabling sets the flag, relative to the head of the descriptors in use. -/
theorem grspw2AutoDropEnable_flagSet (hoff : s.autoDrop = false)
    (hused : ∀ i ∈ s.rxDescRingUsed, i < s.rxNDesc) {nDrop : Nat} {r : Int × RxCore}
    (hs : grspw2AutoDropEnable s nDrop = some r) : r.1 = 0 ∧ r.2.FlagSet := by
  unfold grspw2AutoDropEnable at hs
  rw [if_neg (by rw [hoff]; exact Bool.noConfusion)] at hs
  split at hs
  · cases hs
  · rename_i i rest hcons
    have hi : i < s.rxNDesc := hused i (by rw [hcons]; exact List.mem_cons_self)
    have hclamp : (if s.rxNDesc ≤ nDrop then (s.rxNDesc - 1) % 2 ^ 8 else nDrop) < s.rxNDesc := by
      split <;> omega
    rw [← Option.some.inj hs]
    refine ⟨rfl, rfl, hclamp, rxIdxWrap_lt hi (Nat.le_of_lt hclamp), ?_⟩
    dsimp only [rxDescIrq]
    rw [Function.update_self]

/-- The loop clears the flags of the first descriptors. -/
theorem rxDescIrqNone_flag (s : RxCore) : ∀ n : Nat, (rxDescIrqNone n s).rxNDesc = s.rxNDesc ∧
    ∀ i < n, ((rxDescIrqNone n s).desc i).interruptEnable = false
  | 0 => ⟨rfl, fun i hi => absurd hi (Nat.not_lt_zero i)⟩
  | n + 1 => by
    obtain ⟨hn, hclear⟩ := rxDescIrqNone_flag s n
    refine ⟨hn, fun i hi => ?_⟩
    dsimp only [rxDescIrqNone, rxDescIrq]
    by_cases hin : i = n
    · rw [hin, Function.update_self]
    · rw [Function.update_of_ne hin]
      exact hclear i (by omega)

/-- The descriptors in use in a run are those of the table. -/
theorem RxCore.Rings.used_lt {h u f : Nat} (hr : s.Rings h u f) :
    ∀ i ∈ s.rxDescRingUsed, i < s.rxNDesc := by
  rw [hr.used, forall_mem_arc]
  exact fun j _ => circle_lt (Nat.zero_lt_of_lt hr.head)

end Flags

/-! ## 3. What is left -/

section Left

variable {leon : LeonModel} {k : Grspw2Port} {s s' : SpwSys}

/-- In between, nothing is registered, and the target is the same. -/
theorem spwSteps_kept (ops : List SpwOp) :
    ∀ s : SpwSys, (ops.foldl (spwStep k) s).irl = s.irl ∧ (ops.foldl (spwStep k) s).route = s.route := by
  induction ops with
  | nil => exact fun s => ⟨rfl, rfl⟩
  | cons o ops ih =>
    intro s
    have hstep : (spwStep k s o).irl = s.irl ∧ (spwStep k s o).route = s.route := by
      cases o with
      | rx o => exact ⟨rfl, rfl⟩
      | interrupt =>
        unfold spwStep
        dsimp only
        split <;> exact ⟨rfl, rfl⟩
    rw [List.foldl_cons]
    exact ⟨(ih _).1.trans hstep.1, (ih _).2.trans hstep.2⟩

theorem spwSteps_flagSet (ops : List SpwOp) :
    ∀ s : SpwSys, s.spw.rx.FlagSet → (ops.foldl (spwStep k) s).spw.rx.FlagSet := by
  induction ops with
  | nil => exact fun s hf => hf
  | cons o ops ih =>
    intro s hf
    rw [List.foldl_cons]
    refine ih _ ?_
    cases o with
    | rx o =>
      dsimp only [spwStep]
      cases hs : rxStep s.spw o with
      | none => exact hf
      | some spw => exact hf.rxStep hs
    | interrupt =>
      unfold spwStep
      dsimp only
      split
      · exact hf.interrupt
      · exact hf

/-- **The flag is left over** when dropping is disabled. -/
theorem autoDrop_run (hs : s.Off leon k) {nDrop : Nat} {ops : List SpwOp} {cpu cpu' : Nat}
    (hrun : (SpwUse.autoDrop nDrop).run leon k s ops cpu cpu' = some s') : ¬ s'.Clean k := by
  obtain ⟨r, hcalls, rfl⟩ := Option.map_eq_some_iff.mp hrun
  obtain ⟨q, henable, hdisable⟩ := Option.bind_eq_some_iff.mp hcalls
  obtain ⟨rx, hrx, hrequest⟩ := Option.bind_eq_some_iff.mp henable
  obtain ⟨hret, hflag⟩ := grspw2AutoDropEnable_flagSet hs.autoDrop hs.used hrx
  dsimp only at hrequest
  rw [if_neg (not_not.mpr hret)] at hrequest
  obtain ⟨irl, -, rfl⟩ := Option.map_eq_some_iff.mp hrequest
  have hflag := spwSteps_flagSet (k := k) ops { s with irl := irl.2, spw := { s.spw with rx := rx.2 } } hflag
  dsimp only [SpwUse.disable, spwAutoDropDisable] at hdisable
  generalize ops.foldl (spwStep k) { s with irl := irl.2, spw := { s.spw with rx := rx.2 } } = t
    at hdisable hflag
  have hdropping : grspw2AutoDropDisable t.spw.rx =
      (0, { t.spw.rx with rxIrq := false, autoDrop := false }) :=
    if_neg (by rw [hflag.autoDrop]; exact Bool.noConfusion)
  rw [hdropping, if_neg (not_not.mpr rfl)] at hdisable
  obtain ⟨irl', -, rfl⟩ := Option.map_eq_some_iff.mp hdisable
  intro hclean
  have hclear := hclean.flags t.spw.rx.idxDrop hflag.idxDrop
  exact absurd (hclear.symm.trans hflag.flag) Bool.noConfusion

/-- Routing is disabled; what is left depends on what has been registered, and on the target. -/
theorem spwDisableRouting_left (irl : IrlTables) (spw : RxSys) (route : Nat) (hirl : IrlInv leon irl)
    (hdrop : ¬ irl.Has k.coreIrq k.autoDropCall k.cfg) (ops : List SpwOp) (cpu : Nat) :
    ∃ r irl', spwDisableRouting k (ops.foldl (spwStep k) ⟨irl, spw, route⟩) cpu = some r ∧
      irqFree irl ⟨k.coreIrq, k.routeCall, route, cpu⟩ = some irl' ∧
      (r.2.Clean k ↔ ¬ irl'.Has k.coreIrq k.routeCall k.cfg) := by
  obtain ⟨hkept, hroute⟩ := spwSteps_kept (k := k) ops ⟨irl, spw, route⟩
  obtain ⟨irl', hfree, -, -⟩ := irqFree_registered hirl ⟨k.coreIrq, k.routeCall, route, cpu⟩
  generalize ops.foldl (spwStep k) ⟨irl, spw, route⟩ = t at hkept hroute ⊢
  obtain ⟨hn, hclear⟩ := rxDescIrqNone_flag t.spw.rx t.spw.rx.rxNDesc
  have heq : spwDisableRouting k t cpu = some (0, { t with
      irl := irl'
      spw := { t.spw with rx := { rxDescIrqNone t.spw.rx.rxNDesc t.spw.rx with rxIrq := false } } }) := by
    rw [spwDisableRouting, hkept, hroute, hfree]
    rfl
  refine ⟨_, irl', heq, hfree, fun h => h.noRoute, fun h => ⟨h, fun h => ?_, fun i hi => ?_⟩⟩
  · exact hdrop (irqFree_has hirl hfree h)
  · exact hclear i (lt_of_lt_of_eq hi hn)

/-- **What is left of routing.** -/
theorem routing_run (hs : s.Off leon k) (route : Nat) (tx : TxCore) (txBuf : Nat → Nat → UInt8)
    (ops : List SpwOp) (cpu cpu' : Nat) :
    (∃ s', (SpwUse.routing route tx txBuf).run leon k s ops cpu cpu' = some s' ∧ s'.Clean k) ↔
      (s.irl.pool = [] ∨ irlSize + eirlSize < k.coreIrq) ∨
        (route = k.cfg ∧ LineFound leon k.coreIrq) := by
  dsimp only [SpwUse.run, SpwUse.enable, spwEnableRouting, SpwUse.disable]
  rcases irqRequest_cases (c := ⟨k.coreIrq, k.routeCall, k.cfg, cpu⟩) hs.irl .now k.routeCall_ne with
    ⟨hrefused, ret, -, heq⟩ | ⟨⟨hpool, hle⟩, ⟨hnone, heq⟩ | ⟨irl, heq, hirl, hreg⟩⟩
  · -- nothing has been registered
    obtain ⟨r, irl', hdisable, hfree, hclean⟩ := spwDisableRouting_left s.irl
      (s.spw.enableRouting tx txBuf) route hs.irl hs.noDrop ops cpu'
    rw [heq, Option.map_some, Option.bind_some, hdisable, Option.map_some]
    refine iff_of_true ⟨r.2, rfl, hclean.mpr fun h => ?_⟩ (.inl hrefused)
    exact hs.noRoute (irqFree_has hs.irl hfree h)
  · -- the line does not exist
    rw [heq, Option.map_none, Option.bind_none, Option.map_none]
    refine iff_of_false (fun h => ?_) fun h => ?_
    · obtain ⟨_, h, -⟩ := h
      cases h
    · rcases h with (h | h) | ⟨-, hfound⟩
      · exact hpool h
      · exact absurd h (Nat.not_lt.mpr hle)
      · exact absurd hfound.exists.1 (Nat.not_lt.mpr hnone)
  · have hdrop : ¬ irl.Has k.coreIrq k.autoDropCall k.cfg := by
      rintro ⟨e, he, hirq, hhandler, hdata⟩
      rcases List.mem_cons.mp (hreg.subset he) with rfl | hold
      · exact k.apart hhandler
      · exact hs.noDrop ⟨e, hold, hirq, hhandler, hdata⟩
    obtain ⟨r, irl', hdisable, hfree, hclean⟩ := spwDisableRouting_left irl
      (s.spw.enableRouting tx txBuf) route hirl hdrop ops cpu'
    have hleft := irqRequest_free (c := ⟨k.coreIrq, k.routeCall, k.cfg, cpu⟩)
      (d := ⟨k.coreIrq, k.routeCall, route, cpu'⟩) hs.noRoute hirl hreg rfl hfree
    rw [heq, Option.map_some, Option.bind_some, hdisable, Option.map_some]
    constructor
    · rintro ⟨s', hs', h⟩
      obtain rfl := Option.some.inj hs'
      obtain ⟨hfound, -, hdata⟩ := not_not.mp (mt hleft.mpr (hclean.mp h))
      exact .inr ⟨hdata, hfound⟩
    · rintro ((h | h) | ⟨hroute, hfound⟩)
      · exact absurd h hpool
      · exact absurd h (Nat.not_lt.mpr hle)
      · exact ⟨r.2, rfl, hclean.mpr fun h => hleft.mp h ⟨hfound, rfl, hroute⟩⟩

end Left

/-- **Enabling and disabling.**  From any core without routing and dropping, and with any packets in
between, nothing is left if and only if it is routing that is undone. -/
theorem grspw2_teardown_iff {leon : LeonModel} {k : Grspw2Port} {s : SpwSys} (hs : s.Off leon k)
    (use : SpwUse) (ops : List SpwOp) (cpu cpu' : Nat) :
    (∃ s', use.run leon k s ops cpu cpu' = some s' ∧ s'.Clean k) ↔ use.Undone leon k s := by
  cases use with
  | routing route tx txBuf => exact routing_run hs route tx txBuf ops cpu cpu'
  | autoDrop nDrop =>
    refine iff_of_false ?_ fun h => h
    rintro ⟨s', hrun, hclean⟩
    exact autoDrop_run hs hrun hclean

/-- The core with the interrupt 22. -/
def portSample : Grspw2Port := ⟨0x40100000, 22, 1, 2, by decide, by decide, by decide⟩

/-- It has been started. -/
def spwSample : SpwSys := ⟨irlInit, { rxSample with rx := grspw2CoreStart rxSample.rx }, 0⟩

theorem spwSample_off (leon : LeonModel) : spwSample.Off leon portSample := by
  have hinit : rxSystem.Reachable (fun _ _ => True) rxSample := .init rxSample_init
  have hstart : rxSystem.Reachable (fun _ _ => True) spwSample.spw :=
    hinit.step (o := .coreStart) trivial rfl
  obtain ⟨hq, h, u, f, hi⟩ := rxSystem_reachable hstart
  have hnone : irlInit.registered = [] := List.flatMap_eq_nil_iff.mpr fun _ _ => rfl
  refine ⟨irlInit_inv leon, hi.rings.used_lt, hq.autoDrop, ?_, ?_⟩
  · rintro ⟨e, he, -⟩
    exact absurd (hnone ▸ he) List.not_mem_nil
  · rintro ⟨e, he, -⟩
    exact absurd (hnone ▸ he) List.not_mem_nil

/-- Routed to itself, it forgets its handler; routed to another core, it does not. -/
theorem grspw2_teardown_iff_sample :
    (∃ s', (SpwUse.routing 0x40100000 spwSample.spw.tx spwSample.spw.txBuf).run .leon3 portSample spwSample
        [.rx (.receive [1]), .rx .routeTurn] 0 0 = some s' ∧ s'.Clean portSample) ∧
      ¬ ∃ s', (SpwUse.routing 0x40200000 spwSample.spw.tx spwSample.spw.txBuf).run .leon3 portSample
        spwSample [.rx (.receive [1]), .rx .routeTurn] 0 0 = some s' ∧ s'.Clean portSample := by
  rw [grspw2_teardown_iff (spwSample_off .leon3), grspw2_teardown_iff (spwSample_off .leon3)]
  refine ⟨.inr ⟨rfl, .inr ⟨rfl, by decide⟩⟩, ?_⟩
  rintro ((h | h) | ⟨h, -⟩)
  · exact absurd h (by decide)
  · exact absurd h (by decide)
  · exact absurd h (by decide)

/-- **A handler is left** when a core is routed to another one, and routing is disabled. -/
theorem grspw2_teardown_left : ¬ ∀ (leon : LeonModel) (k : Grspw2Port) (s : SpwSys), s.Off leon k →
    ∀ (use : SpwUse) (ops : List SpwOp) (cpu cpu' : Nat),
      ∃ s', use.run leon k s ops cpu cpu' = some s' ∧ s'.Clean k := by
  intro hall
  have hrun := hall .leon3 portSample spwSample (spwSample_off .leon3)
    (.routing 0x40200000 spwSample.spw.tx spwSample.spw.txBuf) [.rx (.receive [1]), .rx .routeTurn] 0 0
  rcases (routing_run (spwSample_off .leon3) _ _ _ _ _ _).mp hrun with (h | h) | ⟨h, -⟩
  · exact absurd h (by decide)
  · exact absurd h (by decide)
  · exact absurd h (by decide)

end FlightOs
