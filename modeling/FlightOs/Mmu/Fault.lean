/-
# Break and page faults

The other half of `mmu.c`: a page below the break is mapped when it is first touched, by
`mm_mmu_trap`, and `kernel_sbrk` unmaps pages as the break goes down.  The state of a run is that
of the page tables and the break, together with what they are for: `owner` holds, for each page,
the physical page that was mapped there, from the fault on until the page-aligned break has gone
below the page.

A fault is a step for a page that is not mapped; the MMU raises it for no other.  What
`page_alloc` and the allocator of the tables return is part of the step.  Increments that are
refused change nothing and are no steps.
-/
import FlightOs.Mmu.Break
import FlightOs.Srmmu.Contract

namespace FlightOs

/-! ## 1. The code -/

/-- `SRMMU_CACHEABLE | SRMMU_ACC_S_RWX_2` -/
def faultPerm : Nat := 0x80 ||| 0x7 * 2 ^ 2

/-- `mm_mmu_trap` for an invalid address, with what `page_alloc` returns.  The result of the
mapping is printed, and ignored. -/
def mmMmuTrap (s : Srmmu) (c : MmuCtxs) (ctx : Nat) (m : MmSbrk) (addr alloc : Nat) :
    Except Halt (Srmmu × Int) :=
  if addr = 0 then .error .bug
  else if addr < m.addrLo then .error .bug
  else if highmemStart < addr then .error .bug
  else if addr < m.sbrk then
    if alloc = 0 then .error .bug else srmmuDoSmallMapping s c ctx addr alloc faultPerm
  else .error .bug

/-- The pages that `kernel_sbrk` gives back. -/
def mmReleaseMmuMapping (fuel : Nat) (s : Srmmu) (c : MmuCtxs) (ctx : Nat) :
    Option (Nat × Nat) → Except Halt Srmmu
  | none => .ok s
  | some (vaStart, vaStop) => srmmuReleasePages fuel s c ctx vaStart vaStop

/-! ## 2. The system -/

/-- What `page_alloc` may return: `NULL`, or a page as long as there is one. -/
def PageAnswer (total used alloc : Nat) : Prop :=
  alloc = 0 ∨ used < total ∧ 4096 ∣ alloc ∧ alloc < 2 ^ 32

/-- `used` is `__mm_stat.used_blocks`. -/
structure BreakState where
  mmu : Srmmu
  sbrk : Nat
  used : Nat
  owner : Nat → Nat

/-- `mm_free_bytes` with `total` pages of physical memory. -/
def BreakState.freeBytes (total : Nat) (s : BreakState) : Nat := mmFreeBytes ⟨total, s.used, 0⟩

inductive BreakOp
  | sbrk (increment : Nat)
  | fault (addr alloc : Nat) (answers : List Nat)
  | others (used : Nat)

/-- What a call or a fault leads to, if it returns. -/
def BreakStep (C : MmuCtx) (total : Nat) (s : BreakState) : BreakOp → BreakState → Prop
  | .sbrk increment, s' => ∃ r fuel,
    kernelSbrk (kernelBounds s.sbrk) (s.freeBytes total) increment = some r ∧
      mmReleaseMmuMapping fuel s.mmu C.ctxs C.num r.release = .ok s'.mmu ∧
      s'.sbrk = r.sbrk ∧ s'.used = wsub s.used (s'.mmu.pages.length - s.mmu.pages.length) ∧
      s'.owner = fun p => if pageAlign r.sbrk ≤ 4096 * p then 0 else s.owner p
  | .fault addr alloc answers, s' =>
    pteAt s.mmu C.lvl1 (addr / 4096) = 0 ∧ PageAnswer total s.used alloc ∧
      AnswersOk C.lvl1 s.mmu.heap answers ∧ ∃ ret,
      mmMmuTrap { s.mmu with answers := answers } C.ctxs C.num (kernelBounds s.sbrk) addr alloc =
        .ok (s'.mmu, ret) ∧
      s'.sbrk = s.sbrk ∧ s'.used = wadd s.used 1 ∧
      s'.owner = if ret = 0 then Function.update s.owner (addr / 4096) alloc else s.owner
  | .others used, s' => used ≤ total ∧ s' = { s with used := used }

/-- A large mapping of high memory, as `mm_init_leon` makes them. -/
def HighMapping (_ : MmuState) (o : MmuOp) : Prop :=
  ∃ va pa perm, o = .large va pa perm ∧ highmemStart ≤ va

/-- A context, from the start of the virtual memory on, in a machine with `total` pages of physical
memory. -/
def breakSystem (C : MmuCtx) (total : Nat) : System BreakState BreakOp where
  init s := s.sbrk = vmallocStart ∧ s.used ≤ total ∧ (s.owner = fun _ => 0) ∧
    ∃ last, (srmmuSystem C).Reachable HighMapping ⟨s.mmu, last⟩
  step := BreakStep C total

/-- A decrement that crosses the boundary of one page releases nothing, so there must be nothing
there; one that crosses more of them releases what the walk through the tables meets.  The tables
fit their buffers. -/
def BreakOp.Clean (C : MmuCtx) (s : BreakState) : BreakOp → Prop
  | .sbrk increment =>
    let brk := pageAlign (wadd s.sbrk (walign increment 8))
    let oldbrk := pageAlign s.sbrk
    (brk + 4096 = oldbrk → pteAt s.mmu C.lvl1 (brk / 4096) = 0) ∧
      (brk + 4096 < oldbrk → ∀ p, InRange brk oldbrk p → pteAt s.mmu C.lvl1 p ≠ 0 →
        MetAt s.mmu C.lvl1 (brk / 4096) (oldbrk / 4096) p)
  | .fault _ _ answers => Unaligned answers
  | .others _ => True

/-! ## 3. Page boundaries -/

section Pages

variable {x y n : Nat}

theorem pageAlign_spec (hx : x ≤ vmallocEnd) :
    ∃ p, pageAlign x = 4096 * p ∧ x ≤ 4096 * p ∧ 4096 * p < x + 4096 := by
  unfold vmallocEnd at hx
  obtain ⟨⟨p, hp⟩, h1, h2⟩ := walign_spec (x := x) (a := pageSize) (by decide) (by
    unfold pageSize
    omega)
  rw [pageAlign, hp] at *
  unfold pageSize at *
  exact ⟨p, rfl, h1, h2⟩

theorem pageAlign_mono (hx : x ≤ y) (hy : y ≤ vmallocEnd) : pageAlign x ≤ pageAlign y := by
  obtain ⟨p, hp, h1, h2⟩ := pageAlign_spec (hx.trans hy)
  obtain ⟨q, hq, h3, h4⟩ := pageAlign_spec hy
  omega

/-- One page less. -/
theorem pageAlign_sub (hlo : 4096 ≤ x) (hx : x ≤ vmallocEnd) :
    pageAlign (wsub x pageSize) + 4096 = pageAlign x := by
  have hle := hx
  unfold vmallocEnd at hle
  have hsub : wsub x pageSize = x - 4096 := wsub_of_le (by omega) (by simpa [pageSize] using hlo)
  obtain ⟨p, hp, h1, h2⟩ := pageAlign_spec hx
  obtain ⟨q, hq, h3, h4⟩ := pageAlign_spec (x := x - 4096) ((Nat.sub_le _ _).trans hx)
  rw [hsub]
  omega

/-- **What is given back**: nothing where the break crosses at most one boundary. -/
theorem sbrkRelease_eq (hx : 4096 ≤ x) (hx' : x ≤ vmallocEnd) :
    sbrkRelease x y =
      if pageAlign y + 4096 < pageAlign x then some (pageAlign y, pageAlign x) else none := by
  have hsub := pageAlign_sub hx hx'
  unfold sbrkRelease
  by_cases h : pageAlign y + 4096 < pageAlign x
  · rw [if_pos h, if_pos (by omega), if_pos (by omega)]
  · rw [if_neg h, if_neg (by omega)]

/-- An accepted increment: the break is in its bounds, and pages are given back only as it goes
down over more than one boundary. -/
theorem kernelSbrk_spec {sbrk freeBytes : Nat} {r : SbrkResult} (h : sbrk ≤ vmallocEnd)
    (hlo : vmallocStart ≤ sbrk)
    (heq : kernelSbrk (kernelBounds sbrk) freeBytes n = some r) :
    r.sbrk = wadd sbrk (walign n 8) ∧ vmallocStart ≤ r.sbrk ∧ r.sbrk ≤ vmallocEnd ∧
      r.release = if pageAlign r.sbrk + 4096 < pageAlign sbrk then
        some (pageAlign r.sbrk, pageAlign sbrk) else none := by
  have hlo' := hlo
  have hend := h
  unfold vmallocStart at hlo'
  unfold vmallocEnd at hend
  have h4096 : 4096 ≤ sbrk := by omega
  have hw : wadd sbrk 0 = sbrk := by
    unfold wadd
    omega
  by_cases hn : n = 0
  · subst hn
    rw [kernelSbrk, if_pos rfl] at heq
    obtain rfl := Option.some.inj heq
    have h0 : walign 0 8 = 0 := by decide
    have hno : ¬ pageAlign sbrk + 4096 < pageAlign sbrk := by omega
    exact ⟨by rw [h0, hw]; rfl, hlo, h, (if_neg hno).symm⟩
  · by_cases hok : SbrkAccepts (kernelBounds sbrk) freeBytes n
    · rw [kernelSbrk_some hn hok] at heq
      obtain rfl := Option.some.inj heq
      obtain ⟨-, h1, h2⟩ := hok
      refine ⟨rfl, h1, h2, ?_⟩
      have h2' : wadd sbrk (walign n 8) ≤ vmallocEnd := h2
      by_cases hneg : 2 ^ 31 ≤ walign n 8
      · exact (if_pos hneg).trans (sbrkRelease_eq h4096 h)
      · have hle : sbrk ≤ wadd sbrk (walign n 8) := by
          rw [wadd_of_lt (by omega)]
          exact Nat.le_add_right _ _
        have hmono := pageAlign_mono hle h2'
        have hno : ¬ pageAlign (wadd sbrk (walign n 8)) + 4096 < pageAlign sbrk := by omega
        exact (if_neg hneg).trans (if_neg hno).symm
    · rw [kernelSbrk_none hn hok] at heq
      cases heq

end Pages

end FlightOs
