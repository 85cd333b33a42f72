/-
# Interrupt rate protection

A line on which two interrupts come within 200 µs is to be masked for a while
(`arch/sparc/kernel/irq.c`, as configured for the LEON3).  `leon_check_irq_rate` looks at the time
of the last interrupt on a primary line, but stores the time of this one among those of the extended
lines: the times of the primary lines stay zero, and no primary line is ever masked after the first
200 µs.  Each dispatch makes the check twice, for the processor it runs on and for the first one.

`irq_rate_holds`: the lines masked, the count of blocked lines and the restored lines are right in
every run in which no primary line has to be masked and no interrupt comes on a line that is blocked.
-/
import FlightOs.Lib.System
import Mathlib.Algebra.Ring.Nat
import Mathlib.Data.Finset.Card
import Mathlib.Data.Finset.Range
import Mathlib.Logic.Function.Basic
import Mathlib.Tactic.Common

namespace FlightOs

/-! ## 1. The checks -/

def irlSize : Nat := 16
def eirlSize : Nat := 32

instance : NeZero irlSize := ⟨Nat.succ_ne_zero 15⟩
instance : NeZero eirlSize := ⟨Nat.succ_ne_zero 31⟩

def gptimer0Irq : Nat := 8
def leon3Gptimers : Nat := 4

/-- `irq_rate_prot`, and the masks of the interrupt controller, by processor and line.  Times are in
nanoseconds. -/
structure IrqRateProt where
  lastIrq : Nat → Int
  lastEirq : Nat → Int
  needRestore : Int
  irqBlocked : Nat → Nat
  eirqBlocked : Nat → Nat
  mpmask : Nat → Nat → Bool

/-- `ktime_to_us(ktime_delta(now, earlier)) < CONFIG_IRQ_MIN_INTER_US` -/
def TooSoon (now earlier : Int) : Prop := (now - earlier).tdiv 1000 < 200

instance (now earlier : Int) : Decidable (TooSoon now earlier) :=
  inferInstanceAs (Decidable (_ < _))

def leonMaskIrq (s : IrqRateProt) (irq cpu : Nat) : IrqRateProt :=
  { s with mpmask := Function.update s.mpmask cpu (Function.update (s.mpmask cpu) irq false) }

def leonUnmaskIrq (s : IrqRateProt) (irq cpu : Nat) : IrqRateProt :=
  { s with mpmask := Function.update s.mpmask cpu (Function.update (s.mpmask cpu) irq true) }

/-- Timers are exempt from being blocked. -/
def isTimer (irq : Nat) : Bool :=
  decide (gptimer0Irq ≤ irq) && decide (irq < gptimer0Irq + leon3Gptimers)

def leonCheckIrqRate (s : IrqRateProt) (irq cpu : Nat) (now : Int) : IrqRateProt :=
  if isTimer irq then s
  else
    let earlier := s.lastIrq irq
    let s := { s with lastEirq := Function.update s.lastEirq irq now }
    if TooSoon now earlier then
      let s := leonMaskIrq s irq cpu
      { s with
        irqBlocked := Function.update s.irqBlocked irq (cpu + 1)
        needRestore := s.needRestore + 1 }
    else s

/-- `leon_disable_irq` also clears the interrupt. -/
def leonCheckEirqRate (s : IrqRateProt) (irq cpu : Nat) (now : Int) : Bool × IrqRateProt :=
  let earlier := s.lastEirq irq
  let s := { s with lastEirq := Function.update s.lastEirq irq now }
  if TooSoon now earlier then
    let s := leonMaskIrq s irq cpu
    (true, { s with
      eirqBlocked := Function.update s.eirqBlocked irq (cpu + 1)
      needRestore := s.needRestore + 1 })
  else (false, s)

/-- The checks at the end of `leon_irq_dispatch` and of `leon_eirq_dispatch`. -/
def checkTwice (s : IrqRateProt) (irq cpu : Nat) (now now' : Int) : IrqRateProt :=
  leonCheckIrqRate (leonCheckIrqRate s irq cpu now) irq 0 now'

/-- A primary line's turn in `leon_irq_prot_restore`, without its handlers. -/
def restoreIrq (now : Int) (s : IrqRateProt) (i : Nat) : IrqRateProt :=
  if s.irqBlocked i = 0 then s
  else if TooSoon now (s.lastIrq i) then s
  else
    let s := leonUnmaskIrq s i (s.irqBlocked i - 1)
    { s with
      irqBlocked := Function.update s.irqBlocked i 0
      needRestore := s.needRestore - 1 }

def restoreEirq (now : Int) (s : IrqRateProt) (i : Nat) : IrqRateProt :=
  if s.eirqBlocked i = 0 then s
  else if TooSoon now (s.lastEirq i) then s
  else
    let s := leonUnmaskIrq s i (s.eirqBlocked i - 1)
    { s with
      eirqBlocked := Function.update s.eirqBlocked i 0
      needRestore := s.needRestore - 1 }

/-- One pass of the loop in `leon_irq_prot_restore`. -/
def leonIrqProtRestore (s : IrqRateProt) (now : Int) : IrqRateProt :=
  if s.needRestore = 0 then s
  else
    (List.range eirlSize).foldl (restoreEirq now) ((List.range irlSize).foldl (restoreIrq now) s)

/-! ## 2. Runs -/

/-- The protection, with the times of the last interrupts: on the primary lines, if there has been
one, and on the extended ones, with the start of the clock before the first. -/
structure RateState where
  prot : IrqRateProt
  lastArrival : Nat → Option Int
  lastExt : Nat → Int

/-- An interrupt on a primary line; an extended interrupt, as the loop of `leon_eirq_dispatch` meets
it; the end of a dispatch of extended interrupts, on the primary line they share; and a pass that
restores lines.  The processor's number has four bits, and every check reads the clock. -/
inductive RateOp
  | irq (irq : Fin irlSize) (cpu : Fin 16) (now now' : Int)
  | eirq (irq : Fin eirlSize) (cpu : Fin 16) (now : Int)
  | eirqLine (cpu : Fin 16) (now now' now'' now''' : Int)
  | restore (now : Int)

def RateOp.stamps : RateOp → List Int
  | .irq _ _ now now' => [now, now']
  | .eirq _ _ now => [now]
  | .eirqLine _ now now' now'' now''' => [now, now', now'', now''']
  | .restore now => [now]

/-- `leonEirq` is the line of the extended interrupt controller. -/
def rateStep (leonEirq : Fin irlSize) (s : RateState) : RateOp → RateState
  | .irq irq cpu now now' =>
    { s with
      prot := checkTwice s.prot irq cpu now now'
      lastArrival := Function.update s.lastArrival irq (some now) }
  | .eirq irq cpu now =>
    { s with
      prot := (leonCheckEirqRate s.prot irq cpu now).2
      lastExt := Function.update s.lastExt irq now }
  | .eirqLine cpu now now' now'' now''' =>
    { s with
      prot := checkTwice (checkTwice s.prot leonEirq cpu now now') leonEirq cpu now'' now'''
      lastArrival := Function.update s.lastArrival leonEirq (some now) }
  | .restore now => { s with prot := leonIrqProtRestore s.prot now }

/-- At the start, with all lines enabled. -/
def rateInit : RateState where
  prot := {
    lastIrq := fun _ => 0
    lastEirq := fun _ => 0
    needRestore := 0
    irqBlocked := fun _ => 0
    eirqBlocked := fun _ => 0
    mpmask := fun _ _ => true }
  lastArrival := fun _ => none
  lastExt := fun _ => 0

/-- The lines below `n` that are marked. -/
def marked (n : Nat) (blocked : Nat → Nat) : Finset Nat := (Finset.range n).filter (blocked · ≠ 0)

/-- How many lines are marked blocked, primary and extended. -/
def IrqRateProt.blockedLines (s : IrqRateProt) : Nat :=
  (marked irlSize s.irqBlocked).card + (marked eirlSize s.eirqBlocked).card

/-- There has been an interrupt on a primary line within the last 200 µs. -/
def RateState.Recent (s : RateState) (irq : Nat) (now : Int) : Prop :=
  ∃ earlier ∈ s.lastArrival irq, TooSoon now earlier

instance (s : RateState) (irq : Nat) (now : Int) : Decidable (s.Recent irq now) :=
  inferInstanceAs (Decidable (∃ earlier ∈ _, _))

/-- What each step is to do.  A primary line is masked if there has been a recent interrupt on it;
whether an extended one is, rests on the interrupts on that line alone; and a pass restores the lines
without a recent one. -/
def RateRight (leonEirq : Fin irlSize) (s : RateState) (o : RateOp) : Prop :=
  match o with
  | .irq irq cpu now _ => isTimer irq = false →
      ((rateStep leonEirq s o).prot.mpmask cpu irq = false ↔ s.Recent irq now)
  | .eirq irq cpu now =>
      ((leonCheckEirqRate s.prot irq cpu now).1 = true ↔ TooSoon now (s.lastExt irq))
  | .eirqLine cpu now _ _ _ => isTimer leonEirq = false →
      ((rateStep leonEirq s o).prot.mpmask cpu leonEirq = false ↔ s.Recent leonEirq now)
  | .restore now =>
      (∀ i < irlSize, (rateStep leonEirq s o).prot.irqBlocked i ≠ 0 ↔
        s.prot.irqBlocked i ≠ 0 ∧ s.Recent i now) ∧
      ∀ i < eirlSize, (rateStep leonEirq s o).prot.eirqBlocked i ≠ 0 ↔
        s.prot.eirqBlocked i ≠ 0 ∧ TooSoon now (s.lastExt i)

/-- The interrupts on a line are 200 µs apart from each other and from the start of the clock. -/
def RateState.Apart (s : RateState) (irq : Nat) (now : Int) (later : List Int) : Prop :=
  isTimer irq = false → ¬ s.Recent irq now ∧ ∀ t ∈ now :: later, 200000 ≤ t

instance (s : RateState) (irq : Nat) (now : Int) (later : List Int) :
    Decidable (s.Apart irq now later) := inferInstanceAs (Decidable (_ → _))

/-- No primary line has to be masked; an extended line has a number that is no primary line's, and is
not marked blocked when an interrupt comes too soon. -/
def RateApart (leonEirq : Fin irlSize) (s : RateState) : RateOp → Prop
  | .irq irq _ now now' => s.Apart irq now [now']
  | .eirq irq _ now =>
    irlSize ≤ irq.val ∧ (s.prot.eirqBlocked irq = 0 ∨ ¬ TooSoon now (s.prot.lastEirq irq))
  | .eirqLine _ now now' now'' now''' => s.Apart leonEirq now [now', now'', now''']
  | .restore _ => True

instance (leonEirq : Fin irlSize) (s : RateState) : ∀ o, Decidable (RateApart leonEirq s o)
  | .irq irq _ now now' => inferInstanceAs (Decidable (s.Apart irq now [now']))
  | .eirq _ _ _ => inferInstanceAs (Decidable (_ ∧ _))
  | .eirqLine _ now now' now'' now''' =>
    inferInstanceAs (Decidable (s.Apart leonEirq now [now', now'', now''']))
  | .restore _ => isTrue trivial

/-! ## 3. The checks, where no primary line has to be masked -/

/-- What holds in every such run: the primary lines are never blocked, and the times of the extended
lines are their own. -/
structure RateInv (s : RateState) : Prop where
  lastIrq : ∀ i, s.prot.lastIrq i = 0
  irqBlocked : ∀ i, s.prot.irqBlocked i = 0
  eirqBlocked : ∀ i < irlSize, s.prot.eirqBlocked i = 0
  lastEirq : ∀ i, irlSize ≤ i → s.prot.lastEirq i = s.lastExt i
  mpmask : ∀ cpu, ∀ i < irlSize, s.prot.mpmask cpu i = true
  needRestore : s.prot.needRestore = s.prot.blockedLines

section Checks

variable {s : RateState} {irq cpu : Nat} {now now' : Int}

theorem not_tooSoon_zero (h : 200000 ≤ now) : ¬ TooSoon now 0 := by
  rw [TooSoon, Int.sub_zero, Int.tdiv_eq_ediv_of_nonneg (by omega)]
  omega

/-- A late check stores the time, among those of the extended lines. -/
theorem leonCheckIrqRate_late {p : IrqRateProt} (hlast : p.lastIrq irq = 0)
    (htimer : isTimer irq = false) (hnow : 200000 ≤ now) :
    leonCheckIrqRate p irq cpu now =
      { p with lastEirq := Function.update p.lastEirq irq now } := by
  have hsoon : ¬ TooSoon now (p.lastIrq irq) := by
    rw [hlast]
    exact not_tooSoon_zero hnow
  rw [leonCheckIrqRate, htimer]
  simp only [Bool.false_eq_true, if_false, if_neg hsoon]

theorem leonCheckIrqRate_timer {p : IrqRateProt} (htimer : isTimer irq = true) :
    leonCheckIrqRate p irq cpu now = p := by
  rw [leonCheckIrqRate, if_pos htimer]

/-- Times of extended lines that no extended line uses. -/
theorem RateInv.store (h : RateInv s) (hirq : irq < irlSize) :
    RateInv { s with prot := { s.prot with lastEirq := Function.update s.prot.lastEirq irq now } } where
  lastIrq := h.lastIrq
  irqBlocked := h.irqBlocked
  eirqBlocked := h.eirqBlocked
  lastEirq i hi := by
    dsimp only
    rw [Function.update_of_ne (by omega : i ≠ irq)]
    exact h.lastEirq i hi
  mpmask := h.mpmask
  needRestore := h.needRestore

theorem RateInv.check (h : RateInv s) (hirq : irq < irlSize)
    (hnow : isTimer irq = false → 200000 ≤ now) :
    RateInv { s with prot := leonCheckIrqRate s.prot irq cpu now } := by
  cases htimer : isTimer irq with
  | true =>
    rw [leonCheckIrqRate_timer htimer]
    exact h
  | false =>
    rw [leonCheckIrqRate_late (h.lastIrq irq) htimer (hnow htimer)]
    exact h.store hirq

theorem RateInv.checkTwice (h : RateInv s) (hirq : irq < irlSize)
    (hnow : isTimer irq = false → 200000 ≤ now) (hnow' : isTimer irq = false → 200000 ≤ now') :
    RateInv { s with prot := FlightOs.checkTwice s.prot irq cpu now now' } :=
  RateInv.check (s := { s with prot := leonCheckIrqRate s.prot irq cpu now }) (h.check hirq hnow)
    hirq hnow'

/-- When an interrupt came last on a primary line is not looked at. -/
theorem RateInv.arrival (h : RateInv s) (last : Nat → Option Int) :
    RateInv { s with lastArrival := last } where
  lastIrq := h.lastIrq
  irqBlocked := h.irqBlocked
  eirqBlocked := h.eirqBlocked
  lastEirq := h.lastEirq
  mpmask := h.mpmask
  needRestore := h.needRestore

end Checks

/-! ## 4. Blocking and restoring -/

section Marked

variable {n i v : Nat} {blocked : Nat → Nat}

theorem mem_marked : i ∈ marked n blocked ↔ i < n ∧ blocked i ≠ 0 := by
  rw [marked, Finset.mem_filter, Finset.mem_range]

/-- A line that was not marked is marked. -/
theorem card_marked_set (hi : i < n) (hzero : blocked i = 0) (hv : v ≠ 0) :
    (marked n (Function.update blocked i v)).card = (marked n blocked).card + 1 := by
  have hinsert : marked n (Function.update blocked i v) = insert i (marked n blocked) := by
    ext j
    rw [Finset.mem_insert, mem_marked, mem_marked]
    by_cases hj : j = i
    · subst hj
      simp [hi, hv]
    · simp [hj]
  rw [hinsert, Finset.card_insert_of_notMem fun hmem => (mem_marked.mp hmem).2 hzero]

/-- A marked line is marked no more. -/
theorem card_marked_clear (hi : i < n) (hne : blocked i ≠ 0) :
    (marked n (Function.update blocked i 0)).card + 1 = (marked n blocked).card := by
  have herase : marked n (Function.update blocked i 0) = (marked n blocked).erase i := by
    ext j
    rw [Finset.mem_erase, mem_marked, mem_marked]
    by_cases hj : j = i
    · subst hj
      simp
    · simp [hj]
  rw [herase, Finset.card_erase_add_one (mem_marked.mpr ⟨hi, hne⟩)]

end Marked

section Restore

variable {s : RateState} {irq cpu : Nat} {now : Int}

/-- The masks of the primary lines, when the one of another line is written. -/
theorem mpmask_other {mpmask : Nat → Nat → Bool} (h : ∀ cpu, ∀ i < irlSize, mpmask cpu i = true)
    (hirq : irlSize ≤ irq) (b : Bool) : ∀ c, ∀ i < irlSize,
      Function.update mpmask cpu (Function.update (mpmask cpu) irq b) c i = true := by
  intro c i hi
  by_cases hc : c = cpu
  · subst hc
    rw [Function.update_self, Function.update_of_ne (by omega : i ≠ irq)]
    exact h c i hi
  · rw [Function.update_of_ne hc]
    exact h c i hi

/-- **An extended interrupt**: its line is blocked if it comes too soon. -/
theorem RateInv.eirq (h : RateInv s) (hirq : irq < eirlSize) (hle : irlSize ≤ irq)
    (hfree : s.prot.eirqBlocked irq = 0 ∨ ¬ TooSoon now (s.prot.lastEirq irq)) :
    RateInv { s with
      prot := (leonCheckEirqRate s.prot irq cpu now).2
      lastExt := Function.update s.lastExt irq now } := by
  have hlast : ∀ i, irlSize ≤ i →
      Function.update s.prot.lastEirq irq now i = Function.update s.lastExt irq now i := by
    intro i hi
    by_cases hii : i = irq
    · rw [hii, Function.update_self, Function.update_self]
    · rw [Function.update_of_ne hii, Function.update_of_ne hii]
      exact h.lastEirq i hi
  by_cases hsoon : TooSoon now (s.prot.lastEirq irq)
  · have hzero := hfree.resolve_right (not_not_intro hsoon)
    simp only [leonCheckEirqRate, if_pos hsoon]
    refine ⟨h.lastIrq, h.irqBlocked, fun i hi => ?_, hlast, mpmask_other h.mpmask hle false, ?_⟩
    · dsimp only [leonMaskIrq]
      rw [Function.update_of_ne (by omega : i ≠ irq)]
      exact h.eirqBlocked i hi
    · have hcount := h.needRestore
      simp only [IrqRateProt.blockedLines, leonMaskIrq] at hcount ⊢
      rw [card_marked_set hirq hzero (Nat.succ_ne_zero cpu), hcount]
      omega
  · simp only [leonCheckEirqRate, if_neg hsoon]
    exact ⟨h.lastIrq, h.irqBlocked, h.eirqBlocked, hlast, h.mpmask, h.needRestore⟩

theorem leonCheckEirqRate_blocks (p : IrqRateProt) :
    (leonCheckEirqRate p irq cpu now).1 = true ↔ TooSoon now (p.lastEirq irq) := by
  by_cases hsoon : TooSoon now (p.lastEirq irq)
  · simp [leonCheckEirqRate, hsoon]
  · simp [leonCheckEirqRate, hsoon]

/-- No primary line is blocked: there is none to restore. -/
theorem foldl_restoreIrq {p : IrqRateProt} (h : ∀ i, p.irqBlocked i = 0) (l : List Nat) :
    l.foldl (restoreIrq now) p = p := by
  induction l with
  | nil => rfl
  | cons i l ih => rw [List.foldl_cons, restoreIrq, if_pos (h i), ih]

/-- **A line's turn** in a pass: it is restored, unless it is not blocked or its time is not up. -/
theorem restoreEirq_eq (p : IrqRateProt) (i : Nat) :
    (restoreEirq now p i).eirqBlocked =
        (if TooSoon now (p.lastEirq i) then p.eirqBlocked
          else Function.update p.eirqBlocked i 0) ∧
      (restoreEirq now p i).lastEirq = p.lastEirq := by
  unfold restoreEirq
  by_cases hzero : p.eirqBlocked i = 0
  · rw [if_pos hzero, ← hzero, Function.update_eq_self, ite_self]
    exact ⟨rfl, rfl⟩
  · rw [if_neg hzero]
    by_cases hsoon : TooSoon now (p.lastEirq i)
    · rw [if_pos hsoon, if_pos hsoon]
      exact ⟨rfl, rfl⟩
    · rw [if_neg hsoon, if_neg hsoon]
      exact ⟨rfl, rfl⟩

/-- The lines that have had their turns. -/
theorem foldl_restoreEirq (l : List Nat) : ∀ (p : IrqRateProt),
    (∀ i, (l.foldl (restoreEirq now) p).eirqBlocked i =
        if i ∈ l ∧ ¬ TooSoon now (p.lastEirq i) then 0 else p.eirqBlocked i) ∧
      (l.foldl (restoreEirq now) p).lastEirq = p.lastEirq := by
  induction l with
  | nil => exact fun p => ⟨fun i => by simp, rfl⟩
  | cons j l ih =>
    intro p
    obtain ⟨hblocked, hlast⟩ := @restoreEirq_eq now p j
    obtain ⟨ihblocked, ihlast⟩ := ih (restoreEirq now p j)
    refine ⟨fun i => ?_, ihlast.trans hlast⟩
    rw [List.foldl_cons, ihblocked i, hlast, hblocked]
    by_cases hij : i = j
    · subst hij
      by_cases hsoon : TooSoon now (p.lastEirq i)
      · simp [hsoon]
      · simp [hsoon]
    · by_cases hsoon : TooSoon now (p.lastEirq j)
      · simp [hij, hsoon]
      · simp [hij, hsoon]

theorem RateInv.restoreEirq (h : RateInv s) (hirq : irq < eirlSize) :
    RateInv { s with prot := FlightOs.restoreEirq now s.prot irq } := by
  unfold FlightOs.restoreEirq
  by_cases hzero : s.prot.eirqBlocked irq = 0
  · rw [if_pos hzero]
    exact h
  · rw [if_neg hzero]
    by_cases hsoon : TooSoon now (s.prot.lastEirq irq)
    · rw [if_pos hsoon]
      exact h
    · rw [if_neg hsoon]
      have hle : irlSize ≤ irq := by
        by_contra hlt
        exact hzero (h.eirqBlocked irq (by omega))
      refine ⟨h.lastIrq, h.irqBlocked, fun i hi => ?_, h.lastEirq, mpmask_other h.mpmask hle true, ?_⟩
      · dsimp only [leonUnmaskIrq]
        rw [Function.update_of_ne (by omega : i ≠ irq)]
        exact h.eirqBlocked i hi
      · have hcount := h.needRestore
        have hclear := card_marked_clear hirq hzero
        simp only [IrqRateProt.blockedLines, leonUnmaskIrq] at hcount ⊢
        rw [hcount, ← hclear]
        omega

theorem RateInv.foldl_restoreEirq (l : List Nat) : ∀ {s : RateState}, RateInv s →
    (∀ i ∈ l, i < eirlSize) → RateInv { s with prot := l.foldl (FlightOs.restoreEirq now) s.prot } := by
  induction l with
  | nil => exact fun h _ => h
  | cons i l ih =>
    intro s h hl
    exact ih (s := { s with prot := FlightOs.restoreEirq now s.prot i })
      (h.restoreEirq (hl i (List.mem_cons_self ..))) fun j hj => hl j (List.mem_cons_of_mem _ hj)

/-- **A pass** restores the extended lines whose time is up; where nothing is counted, nothing is
blocked. -/
theorem RateInv.restore_eq (h : RateInv s) : ∀ i < eirlSize,
    (leonIrqProtRestore s.prot now).eirqBlocked i =
      if TooSoon now (s.prot.lastEirq i) then s.prot.eirqBlocked i else 0 := by
  intro i hi
  unfold leonIrqProtRestore
  by_cases hnone : s.prot.needRestore = 0
  · have hcount := h.needRestore
    rw [hnone, IrqRateProt.blockedLines] at hcount
    have hempty : marked eirlSize s.prot.eirqBlocked = ∅ := by
      rw [← Finset.card_eq_zero]
      omega
    have hzero : s.prot.eirqBlocked i = 0 := by
      by_contra hne
      have hmem : i ∈ marked eirlSize s.prot.eirqBlocked := mem_marked.mpr ⟨hi, hne⟩
      rw [hempty] at hmem
      cases hmem
    rw [if_pos hnone, hzero, ite_self]
  · rw [if_neg hnone, foldl_restoreIrq h.irqBlocked, (FlightOs.foldl_restoreEirq _ _).1 i]
    by_cases hsoon : TooSoon now (s.prot.lastEirq i)
    · simp [hsoon]
    · simp [hsoon, hi]

theorem RateInv.restore (h : RateInv s) :
    RateInv { s with prot := leonIrqProtRestore s.prot now } := by
  unfold leonIrqProtRestore
  by_cases hnone : s.prot.needRestore = 0
  · rw [if_pos hnone]
    exact h
  · rw [if_neg hnone, foldl_restoreIrq h.irqBlocked]
    exact h.foldl_restoreEirq _ fun i hi => List.mem_range.mp hi

end Restore

/-! ## 5. Whole runs -/

section Runs

variable {leonEirq : Fin irlSize} {s : RateState}

theorem rateInit_inv : RateInv rateInit where
  lastIrq _ := rfl
  irqBlocked _ := rfl
  eirqBlocked _ _ := rfl
  lastEirq _ _ := rfl
  mpmask _ _ _ := rfl
  needRestore := by decide

theorem RateInv.step (h : RateInv s) (o : RateOp) (hok : RateApart leonEirq s o) :
    RateInv (rateStep leonEirq s o) := by
  cases o with
  | irq irq cpu now now' =>
    have hchecked : RateInv { s with prot := FlightOs.checkTwice s.prot irq cpu now now' } :=
      h.checkTwice irq.isLt (fun htimer => (hok htimer).2 now (by simp))
        fun htimer => (hok htimer).2 now' (by simp)
    exact hchecked.arrival _
  | eirq irq cpu now => exact h.eirq irq.isLt hok.1 hok.2
  | eirqLine cpu now now' now'' now''' =>
    have hlate : ∀ t ∈ [now, now', now'', now'''], isTimer leonEirq = false → 200000 ≤ t :=
      fun t ht htimer => (hok htimer).2 t ht
    have hchecked : RateInv { s with prot := FlightOs.checkTwice s.prot leonEirq cpu now now' } :=
      h.checkTwice leonEirq.isLt (hlate now (by simp)) (hlate now' (by simp))
    have hchecked' : RateInv { s with
        prot := FlightOs.checkTwice (FlightOs.checkTwice s.prot leonEirq cpu now now') leonEirq cpu
          now'' now''' } :=
      hchecked.checkTwice leonEirq.isLt (hlate now'' (by simp)) (hlate now''' (by simp))
    exact hchecked'.arrival _
  | restore now => exact h.restore

/-- **One step** does what it is to do. -/
theorem RateInv.right (h : RateInv s) (o : RateOp) (hok : RateApart leonEirq s o) :
    RateRight leonEirq s o := by
  have hstep := h.step o hok
  cases o with
  | irq irq cpu now now' =>
    intro htimer
    rw [hstep.mpmask cpu irq irq.isLt]
    exact iff_of_false (by decide) (hok htimer).1
  | eirq irq cpu now =>
    rw [RateRight, leonCheckEirqRate_blocks, h.lastEirq irq hok.1]
  | eirqLine cpu now now' now'' now''' =>
    intro htimer
    rw [hstep.mpmask cpu leonEirq leonEirq.isLt]
    exact iff_of_false (by decide) (hok htimer).1
  | restore now =>
    refine ⟨fun i _ => ?_, fun i hi => ?_⟩
    · rw [hstep.irqBlocked i, h.irqBlocked i]
      simp
    · have hrestore : (rateStep leonEirq s (.restore now)).prot.eirqBlocked i = _ :=
        h.restore_eq i hi
      rw [hrestore]
      by_cases hle : irlSize ≤ i
      · rw [h.lastEirq i hle]
        by_cases hsoon : TooSoon now (s.lastExt i)
        · simp [hsoon]
        · simp [hsoon]
      · rw [h.eirqBlocked i (by omega), ite_self]
        simp

/-- **Interrupt rate protection.**  In every run in which no primary line has to be masked and no
interrupt comes too soon on an extended line that is blocked, each step does what it is to do, and
the count is that of the blocked lines. -/
theorem irq_rate_holds (leonEirq : Fin irlSize) (ops : List RateOp)
    (h : StepsMeet (rateStep leonEirq) (RateApart leonEirq) rateInit ops) :
    StepsMeet (rateStep leonEirq) (RateRight leonEirq) rateInit ops ∧
      Along (rateStep leonEirq) (fun s => s.prot.needRestore = s.prot.blockedLines) rateInit ops :=
  ⟨StepsMeet.mono (fun _ o hI hok => RateInv.right hI o hok)
      (fun _ o hI hok => RateInv.step hI o hok) ops rateInit_inv h,
    Along.mono (fun _ (hI : RateInv _) => hI.needRestore)
      (StepsMeet.along (fun _ o hI hok => RateInv.step hI o hok) ops rateInit_inv h)⟩

/-- A primary interrupt, an extended one that comes twice, the second time in vain, and a pass. -/
theorem irq_rate_holds_mixed :
    StepsMeet (rateStep 12) (RateRight 12) rateInit
        [.irq 3 1 1000000 1001000, .eirq 20 0 2000000, .eirq 20 0 2050000,
          .eirqLine 0 2051000 2052000 2053000 2054000, .restore 3000000] ∧
      Along (rateStep 12) (fun s => s.prot.needRestore = s.prot.blockedLines) rateInit
        [.irq 3 1 1000000 1001000, .eirq 20 0 2000000, .eirq 20 0 2050000,
          .eirqLine 0 2051000 2052000 2053000 2054000, .restore 3000000] :=
  irq_rate_holds 12 _ (by decide)

/-- **A line is not masked**, though its interrupts come within 100 µs. -/
theorem irq_rate_unmasked :
    ¬ ∀ (leonEirq : Fin irlSize) (ops : List RateOp),
      (ops.flatMap RateOp.stamps).Pairwise (· < ·) →
      StepsMeet (rateStep leonEirq) (RateRight leonEirq) rateInit ops ∧
        Along (rateStep leonEirq) (fun s => s.prot.needRestore = s.prot.blockedLines) rateInit ops := by
  intro h
  obtain ⟨-, hsecond, -⟩ :=
    (h 12 [.irq 3 0 1000000 1001000, .irq 3 0 1100000 1101000] (by decide)).1
  have hmasked := (hsecond (by decide)).mpr (by decide)
  exact absurd hmasked (by decide)

end Runs

end FlightOs
