/-
# Break and page faults over whole runs

`break_sound`: in every run of accepted increments and page faults whose decrements are clean,
the pages that are mapped are those that were touched since the break last went below them.  What
a decrement gives back depends on the two ends only, so it can be taken in steps.

A decrement that crosses the boundary of exactly one page is not clean if that page is mapped:
the test in `kernel_sbrk` compares with the break less a page, and the page would stay mapped above
the break.  But a decrement is compared with the free memory as a word: `break_only_grows` says
that it is refused where the physical memory lies in high memory.  `break_loses_page` is a run of
faults that is not clean.
-/
import FlightOs.Mmu.Fault
import Mathlib.Algebra.BigOperators.Ring.List

namespace FlightOs

/-! ## 1. The invariant -/

/-- The physical pages of a range, in order. -/
def ownedPages (owner : Nat → Nat) (lo hi : Nat) : List Nat :=
  gather lo hi (fun p => if owner p = 0 then [] else [owner p])

structure BreakInv (C : MmuCtx) (s : BreakState) (A : PgTree) : Prop where
  good : Good True s.mmu C.lvl1 A
  low : ∀ r < 32, A.large r = 0
  range : vmallocStart ≤ s.sbrk ∧ s.sbrk ≤ vmallocEnd
  pages : ∀ p < 2 ^ 20, A.page p = if s.owner p = 0 then 0 else srmmuPte (s.owner p) faultPerm
  phys : ∀ p, 4096 ∣ s.owner p ∧ s.owner p < 2 ^ 32
  below : ∀ p, s.owner p ≠ 0 → 4096 * p < pageAlign s.sbrk

section Break

variable {C : MmuCtx} {total : Nat} {s s' : BreakState} {A : PgTree} {p x y : Nat}

theorem BreakInv.page_eq_zero_iff (I : BreakInv C s A) (hp : p < 2 ^ 20) :
    A.page p = 0 ↔ s.owner p = 0 := by
  rw [I.pages p hp]
  constructor
  · intro h
    by_contra hne
    rw [if_neg hne] at h
    exact ne_zero_of_isPtEntry (isPtEntry_srmmuPte _ _) h
  · intro h
    exact if_pos h

theorem BreakInv.pteAt_eq_zero_iff (I : BreakInv C s A) (hp : p < 2 ^ 20) :
    pteAt s.mmu C.lvl1 p = 0 ↔ s.owner p = 0 := by
  rw [I.good.pteAt_eq hp]
  exact I.page_eq_zero_iff hp

/-- A page that is owned is translated to its owner. -/
theorem BreakInv.translates (I : BreakInv C s A) (hp : p < 2 ^ 20) (hne : s.owner p ≠ 0) :
    srmmuPteToAddr (pteAt s.mmu C.lvl1 p) = s.owner p := by
  rw [I.good.pteAt_eq hp, I.pages p hp, if_neg hne]
  exact srmmuPteToAddr_srmmuPte (I.phys p).1 (I.phys p).2 (by decide)

/-- The large mappings of high memory leave the tables below empty. -/
theorem HighMapping.tables {m : MmuState} (h : (srmmuSystem C).Reachable HighMapping m) :
    ∃ A, Good True m.mmu C.lvl1 A ∧ (∀ k, A.tbl k = none) ∧ ∀ r < 32, A.large r = 0 := by
  refine h.invariant (I := fun m => ∃ A, Good True m.mmu C.lvl1 A ∧ (∀ k, A.tbl k = none) ∧
    ∀ r < 32, A.large r = 0) (fun m hm => ⟨_, Good.init hm, fun _ => rfl, fun _ _ => by simp [PgTree.large]⟩) ?_
  rintro m o m' ⟨A, hA, hnone, hlow⟩ ⟨va, pa, perm, rfl, hva⟩ hstep
  unfold highmemStart at hva
  have hno : True → mmuFindTblLvl2 m.mmu C.lvl1 va = 0 := by
    intro _
    rw [hA.findTblLvl2 hstep.1.2.1, hnone]
    rfl
  refine ⟨_, (hA.large hno hstep).1, fun k => ?_, fun r hr => ?_⟩
  · cases k with
    | lvl2 r => simp [PgTree.putLarge, hnone]
    | lvl3 q => simp [PgTree.putLarge, hnone]
  · rw [PgTree.large_putLarge (isPtEntry_srmmuPte _ _), if_neg (by omega)]
    exact hlow r hr

theorem BreakInv.init (h : (breakSystem C total).init s) : ∃ A, BreakInv C s A := by
  obtain ⟨hsbrk, -, howner, last, hreach⟩ := h
  obtain ⟨A, hA, hnone, hlow⟩ := HighMapping.tables hreach
  refine ⟨A, hA, hlow, ?_, fun p _ => ?_, fun p => ?_, fun p hne => ?_⟩
  · rw [hsbrk]
    decide
  · rw [howner, if_pos rfl]
    exact PgTree.page_of_none (hnone _)
  · rw [howner]
    exact ⟨Nat.dvd_zero _, by norm_num⟩
  · rw [howner] at hne
    exact absurd rfl hne

/-! ## 2. Faults -/

/-- A mapping looks at the page of its address only. -/
theorem mapSmall_page (m : Srmmu) (lvl1 va pa perm : Nat) :
    mapSmall m lvl1 va pa perm = mapSmall m lvl1 (4096 * (va / 4096)) pa perm := by
  have h1 : srmmuLvl1GetTblOffset (4096 * (va / 4096)) = srmmuLvl1GetTblOffset va := by
    unfold srmmuLvl1GetTblOffset
    omega
  have h2 : srmmuLvl2GetTblOffset (4096 * (va / 4096)) = srmmuLvl2GetTblOffset va := by
    unfold srmmuLvl2GetTblOffset
    omega
  have h3 : srmmuLvl3GetTblOffset (4096 * (va / 4096)) = srmmuLvl3GetTblOffset va := by
    unfold srmmuLvl3GetTblOffset
    omega
  have hf2 : ∀ m, mmuFindTblLvl2 m lvl1 (4096 * (va / 4096)) = mmuFindTblLvl2 m lvl1 va := by
    intro m
    simp only [mmuFindTblLvl2, h1]
  have hf3 : ∀ m, mmuFindTblLvl3 m lvl1 (4096 * (va / 4096)) = mmuFindTblLvl3 m lvl1 va := by
    intro m
    simp only [mmuFindTblLvl3, hf2, h2]
  have hn2 : ∀ m, mmuNeedLvl2Tbl m lvl1 (4096 * (va / 4096)) = mmuNeedLvl2Tbl m lvl1 va := by
    intro m
    simp only [mmuNeedLvl2Tbl, h1]
  have hm3 : ∀ m T, mmuMakeLvl3Tbl m T (4096 * (va / 4096)) = mmuMakeLvl3Tbl m T va := by
    intro m T
    simp only [mmuMakeLvl3Tbl, h2]
  have hn3 : mmuNeedLvl3Tbl m lvl1 (4096 * (va / 4096)) = mmuNeedLvl3Tbl m lvl1 va := by
    simp only [mmuNeedLvl3Tbl, hf2, hf3, hn2, hm3]
  simp only [mapSmall, hn3, hf3, h3]

/-- A trap that returns has gone through all the checks. -/
theorem mmMmuTrap_ok {m : Srmmu} {c : MmuCtxs} {ctx addr alloc : Nat} {b : MmSbrk}
    {x : Srmmu × Int} (h : mmMmuTrap m c ctx b addr alloc = .ok x) :
    addr ≤ highmemStart ∧ addr < b.sbrk ∧ alloc ≠ 0 ∧
      srmmuDoSmallMapping m c ctx addr alloc faultPerm = .ok x := by
  unfold mmMmuTrap at h
  split_ifs at h with h1 h2 h3 h4 h5
  exact ⟨not_lt.mp h3, h4, h5, h⟩

/-- **A page fault** gives the page an owner, or leaves all as it is. -/
theorem BreakInv.fault {addr alloc : Nat} {answers : List Nat} (I : BreakInv C s A)
    (hun : Unaligned answers) (hstep : BreakStep C total s (.fault addr alloc answers) s') :
    ∃ A', BreakInv C s' A' := by
  obtain ⟨hpte, hanswer, hans, ret, htrap, hsbrk, -, howner⟩ := hstep
  obtain ⟨hhigh, hlt, hne, hmap⟩ := mmMmuTrap_ok htrap
  obtain ⟨-, hdvd, halloc⟩ := hanswer.resolve_left hne
  have hlt' : addr < s.sbrk := hlt
  unfold highmemStart at hhigh
  have hpage : 4096 * (addr / 4096) / 4096 = addr / 4096 := Nat.mul_div_cancel_left _ (by norm_num)
  rw [C.smallMapping, mapSmall_page] at hmap
  have hva : 4096 * (addr / 4096) < 2 ^ 32 := by omega
  -- the mapping as a step of the page tables
  have hmmu : (srmmuSystem C).step ⟨s.mmu, s.owner⟩
      (.small (4096 * (addr / 4096)) alloc faultPerm answers) ⟨s'.mmu, s'.owner⟩ := by
    refine ⟨⟨Nat.dvd_mul_right _ _, hva, hdvd, halloc, by decide⟩, hans, ret, ?_, ?_⟩
    · rw [C.smallMapping]
      exact hmap
    · rw [hpage]
      exact howner
  obtain ⟨A', ret', hA', hlarge, hp, hown⟩ := I.good.small hun (I.good.countRoom hva)
    (fun _ => hpage.symm ▸ hpte) hmmu
  rw [hpage] at hp hown
  simp only at hown
  refine ⟨A', hA', fun r hr => (hlarge r).trans (I.low r hr), hsbrk ▸ I.range, fun p hp20 => ?_,
    fun p => ?_, fun p hpne => ?_⟩
  · rw [hp, hown]
    by_cases hret : ret' = 0
    · by_cases hpp : p = addr / 4096
      · rw [if_pos ⟨hret, hpp⟩, if_pos hret, hpp, Function.update_self, if_neg hne]
      · rw [if_neg (fun hh => hpp hh.2), if_pos hret, Function.update_of_ne hpp]
        exact I.pages p hp20
    · rw [if_neg (fun hh => hret hh.1), if_neg hret]
      exact I.pages p hp20
  · rw [hown]
    split
    · by_cases hpp : p = addr / 4096
      · rw [hpp, Function.update_self]
        exact ⟨hdvd, halloc⟩
      · rw [Function.update_of_ne hpp]
        exact I.phys p
    · exact I.phys p
  · rw [hsbrk]
    by_cases hpp : p = addr / 4096
    · obtain ⟨q, hq, h1, -⟩ := pageAlign_spec I.range.2
      omega
    · rw [hown] at hpne
      split at hpne
      · rw [Function.update_of_ne hpp] at hpne
        exact I.below p hpne
      · exact I.below p hpne

/-! ## 3. Decrements -/

/-- The range of a release, page by page. -/
theorem pagesOfRange_eq (I : BreakInv C s A) (hy : y ≤ 2 ^ 17) :
    pagesOfRange s.mmu C.lvl1 (4096 * x) (4096 * y) = ownedPages s.owner x y := by
  have hregion : pagesOfRange s.mmu C.lvl1 (4096 * x) (4096 * y) =
      gather 0 256 (fun r => gather (4096 * r) (4096 * (r + 1)) (fun p =>
        if InRange (4096 * x) (4096 * y) p ∧ pteAt s.mmu C.lvl1 p ≠ 0 then
          [srmmuPteToAddr (pteAt s.mmu C.lvl1 p)] else [])) := by
    refine gather_congr (fun r _ hr => ?_)
    split
    next hne =>
      have hr32 : ¬ r < 32 := fun hlt => hne ((I.good.largeAt_eq hr).trans (I.low r hlt))
      have hno : ¬ RegionMeets (4096 * x) (4096 * y) r := by
        rw [RegionMeets]
        omega
      rw [if_neg hno, gather_eq_nil]
      intro p h1 h2
      refine if_neg (fun hh => hno (regionMeets_iff.mpr ⟨p, by omega, hh.1⟩))
    next => rfl
  rw [hregion, gather_blocks, gather_clip (Nat.zero_le x) (by omega : y ≤ 4096 * 256), ownedPages]
  · refine gather_congr (fun p h1 h2 => ?_)
    have hp : p < 2 ^ 20 := by omega
    by_cases h0 : s.owner p = 0
    · rw [if_pos h0, if_neg (fun hh => hh.2 ((I.pteAt_eq_zero_iff hp).mpr h0))]
    · rw [if_neg h0, if_pos ⟨inRange_iff.mpr ⟨h1, h2⟩, fun e => h0 ((I.pteAt_eq_zero_iff hp).mp e)⟩,
        I.translates hp h0]
  · intro p _ _ hout
    exact if_neg (fun hh => hout (inRange_iff.mp hh.1))

/-- A range of the heap fits the tables where the walk meets all there is in it. -/
theorem BreakInv.fits (I : BreakInv C s A) (hy : y ≤ 2 ^ 17)
    (hmet : ∀ p, InRange (4096 * x) (4096 * y) p → pteAt s.mmu C.lvl1 p ≠ 0 →
      MetAt s.mmu C.lvl1 x y p) : ReleaseFits s.mmu C.lvl1 (4096 * x) (4096 * y) := by
  have hx' : 4096 * x / 4096 = x := Nat.mul_div_cancel_left x (by norm_num)
  have hy' : 4096 * y / 4096 = y := Nat.mul_div_cancel_left y (by norm_num)
  refine ⟨?_, ?_, fun r hr hm hne => ?_⟩
  · have hle : 4096 * 255 ≤ regionEntryAt s.mmu C.lvl1 (4096 * x / 4096) 255 := le_enter
    rw [hy']
    omega
  · rw [hx', hy']
    exact hmet
  · have hr32 : r < 32 := by
      rw [RegionMeets] at hm
      omega
    exact absurd ((I.good.largeAt_eq hr).trans (I.low r hr32)) hne

/-- **An accepted increment**: what is above the break has no owner any more, and has been given
back. -/
theorem BreakInv.sbrk {increment : Nat} (I : BreakInv C s A)
    (hclean : (BreakOp.sbrk increment).Clean C s)
    (hstep : BreakStep C total s (.sbrk increment) s') :
    (∃ A', BreakInv C s' A') ∧ s'.sbrk = wadd s.sbrk (walign increment 8) ∧
      s'.mmu.pages = s.mmu.pages ++
        ownedPages s.owner (pageAlign s'.sbrk / 4096) (pageAlign s.sbrk / 4096) := by
  obtain ⟨r, fuel, hr, hrel, hsbrk, -, howner⟩ := hstep
  obtain ⟨hnew, hlo, hhi, hrelease⟩ := kernelSbrk_spec I.range.2 I.range.1 hr
  obtain ⟨hone, hmany⟩ := hclean
  rw [← hnew] at hone hmany
  rw [hsbrk]
  obtain ⟨x, hx, hx1, hx2⟩ := pageAlign_spec hhi
  obtain ⟨y, hy, hy1, hy2⟩ := pageAlign_spec I.range.2
  have hbelow := I.below
  have hx' : 4096 * x / 4096 = x := Nat.mul_div_cancel_left x (by norm_num)
  have hy' : 4096 * y / 4096 = y := Nat.mul_div_cancel_left y (by norm_num)
  simp only [hx, hy, hx', hy'] at hone hmany hrelease hbelow howner ⊢
  have hend := hhi
  have hend' := I.range.2
  unfold vmallocEnd at hend hend'
  have hy17 : y ≤ 2 ^ 17 := by omega
  have hphys : ∀ p, 4096 ∣ s'.owner p ∧ s'.owner p < 2 ^ 32 := by
    intro p
    simp only [howner]
    split
    · exact ⟨Nat.dvd_zero _, by norm_num⟩
    · exact I.phys p
  have hbelow' : ∀ p, s'.owner p ≠ 0 → 4096 * p < pageAlign s'.sbrk := by
    intro p hne
    rw [hsbrk, hx]
    simp only [howner] at hne
    by_contra hle
    exact hne (if_pos (not_lt.mp hle))
  by_cases hcross : 4096 * x + 4096 < 4096 * y
  · rw [hrelease, if_pos hcross] at hrel
    have hfit := I.fits hy17 (hmany hcross)
    have hmmu : (srmmuSystem C).step ⟨s.mmu, s.owner⟩ (.release (4096 * x) (4096 * y))
        ⟨s'.mmu, fun p => if InRange (4096 * x) (4096 * y) p then 0 else s.owner p⟩ :=
      ⟨⟨Nat.dvd_mul_right _ _, by omega, Nat.dvd_mul_right _ _, by omega⟩, fuel, hrel, rfl⟩
    obtain ⟨A', hA', hR, -⟩ := I.good.release hmmu
    simp only [hx', hy'] at hR
    have hdone := hR.released I.good hA' (by omega) hfit
    refine ⟨⟨A', hA', fun r hr32 => ?_, ?_, fun p hp => ?_, hphys, hbelow'⟩, hnew, ?_⟩
    · rw [hR.large r (by omega), I.low r hr32, ite_self]
    · rw [hsbrk]
      exact ⟨hlo, hhi⟩
    · simp only [howner]
      by_cases hin : InRange (4096 * x) (4096 * y) p
      · have hgone := (hdone.gone p hin).1
        rw [hA'.pteAt_eq hp] at hgone
        rw [hgone, if_pos (if_pos hin.1)]
      · have hkept := (hdone.kept p hp hin).1
        rw [hA'.pteAt_eq hp, I.good.pteAt_eq hp] at hkept
        rw [hkept, I.pages p hp]
        by_cases hle : 4096 * x ≤ 4096 * p
        · have h0 : s.owner p = 0 := by
            by_contra hne
            exact hin ⟨hle, hbelow p hne⟩
          rw [if_pos hle, if_pos h0, if_pos rfl]
        · rw [if_neg hle]
    · rw [hdone.pages, pagesOfRange_eq I hy17]
  · rw [hrelease, if_neg hcross] at hrel
    have hsame : s.mmu = s'.mmu := Except.ok.inj hrel
    -- a page above the new break is the one whose boundary was crossed
    have hfree : ∀ p, 4096 * x ≤ 4096 * p → s.owner p = 0 := by
      intro p hle
      by_contra hne
      have hlt := hbelow p hne
      obtain rfl : p = x := by omega
      exact hne ((I.pteAt_eq_zero_iff (by omega)).mp (hone (by omega)))
    have hown : s'.owner = s.owner := by
      rw [howner]
      funext p
      split
      next hle => exact (hfree p hle).symm
      next => rfl
    refine ⟨⟨A, hsame ▸ I.good, I.low, ?_, fun p hp => ?_, hphys, hbelow'⟩, hnew, ?_⟩
    · rw [hsbrk]
      exact ⟨hlo, hhi⟩
    · rw [hown]
      exact I.pages p hp
    · rw [← hsame, ownedPages, gather_eq_nil, List.append_nil]
      intro p h1 _
      exact if_pos (hfree p (Nat.mul_le_mul_left _ h1))

theorem BreakInv.of_reachable (h : (breakSystem C total).Reachable (BreakOp.Clean C) s) :
    ∃ A, BreakInv C s A := by
  refine h.invariant (I := fun s => ∃ A, BreakInv C s A) (fun s hs => BreakInv.init hs) ?_
  rintro s o s' ⟨A, I⟩ hok hstep
  cases o with
  | sbrk increment => exact (I.sbrk hok hstep).1
  | fault addr alloc answers => exact I.fault hok hstep
  | others used =>
    obtain ⟨-, rfl⟩ := hstep
    exact ⟨A, I.good, I.low, I.range, I.pages, I.phys, I.below⟩

/-- An accepted increment returns. -/
theorem BreakInv.returns {increment : Nat} {r : SbrkResult} (I : BreakInv C s A)
    (hr : kernelSbrk (kernelBounds s.sbrk) (s.freeBytes total) increment = some r) :
    ∃ s', BreakStep C total s (.sbrk increment) s' := by
  obtain ⟨-, -, hhi, hrelease⟩ := kernelSbrk_spec I.range.2 I.range.1 hr
  obtain ⟨x, hx, -⟩ := pageAlign_spec hhi
  obtain ⟨y, hy, -, hy2⟩ := pageAlign_spec I.range.2
  have hend := I.range.2
  unfold vmallocEnd at hend
  rw [hx, hy] at hrelease
  by_cases hcross : 4096 * x + 4096 < 4096 * y
  · have hle : 4096 * 255 ≤ A.regionEntry x 255 := le_enter
    obtain ⟨m, A', hrel, -⟩ := I.good.releaseLvl1Pages (c := x) (e := y) (by omega) (by omega)
      (n := 257) (by omega)
    refine ⟨⟨m, r.sbrk, wsub s.used (m.pages.length - s.mmu.pages.length), _⟩, r, 257, hr, ?_,
      rfl, rfl, rfl⟩
    rw [hrelease, if_pos hcross]
    exact (C.releasePages s.mmu 256).trans hrel
  · refine ⟨⟨s.mmu, r.sbrk, wsub s.used (s.mmu.pages.length - s.mmu.pages.length), _⟩, r, 0, hr, ?_,
      rfl, rfl, rfl⟩
    rw [hrelease, if_neg hcross]
    rfl

/-! ## 4. Sequences of decrements -/

/-- Decrements by the numbers of a list, one after the other. -/
inductive Shrinks (C : MmuCtx) (total : Nat) : BreakState → List Nat → BreakState → Prop
  | nil {s : BreakState} : Shrinks C total s [] s
  | cons {s s₁ s' : BreakState} {n : Nat} {ns : List Nat} : 0 < n → n ≤ 2 ^ 31 →
      (BreakOp.sbrk (2 ^ 32 - n)).Clean C s →
      BreakStep C total s (.sbrk (2 ^ 32 - n)) s₁ → Shrinks C total s₁ ns s' →
      Shrinks C total s (n :: ns) s'

/-- The break after a decrement by a multiple of eight. -/
theorem wadd_neg {sbrk n : Nat} (h8 : 8 ∣ n) (hpos : 0 < n) (hn : n ≤ 2 ^ 31)
    (hs : sbrk ≤ vmallocEnd) (hr : wadd sbrk (walign (2 ^ 32 - n) 8) ≤ vmallocEnd) :
    wadd sbrk (walign (2 ^ 32 - n) 8) + n = sbrk := by
  have hal : walign (2 ^ 32 - n) 8 = 2 ^ 32 - n := walign_of_dvd (by omega) (by omega) (by omega)
  rw [hal] at hr ⊢
  unfold vmallocEnd at hs hr
  unfold wadd at hr ⊢
  omega

/-- **A sequence of decrements** gives back the pages between its ends. -/
theorem BreakInv.shrinks {ns : List Nat} (h : Shrinks C total s ns s') (I : BreakInv C s A)
    (h8 : ∀ n ∈ ns, 8 ∣ n) :
    (∃ A', BreakInv C s' A') ∧ s'.sbrk + ns.sum = s.sbrk ∧
      (∀ p, s'.owner p = if pageAlign s'.sbrk ≤ 4096 * p then 0 else s.owner p) ∧
      s'.mmu.pages.Perm (s.mmu.pages ++
        ownedPages s.owner (pageAlign s'.sbrk / 4096) (pageAlign s.sbrk / 4096)) := by
  induction h generalizing A with
  | @nil s =>
    refine ⟨⟨A, I⟩, rfl, fun p => ?_, ?_⟩
    · split
      next hle =>
        by_contra hne
        exact absurd (I.below p hne) (not_lt.mpr hle)
      next => rfl
    · rw [ownedPages, gather_of_le (le_refl _), List.append_nil]
  | @cons s s₁ s' n ns hpos hn hclean hstep _ ih =>
    obtain ⟨⟨A₁, I₁⟩, hsbrk, hpages⟩ := I.sbrk hclean hstep
    obtain ⟨hA', hsum, hown, hperm⟩ := ih I₁ (fun n hn => h8 n (List.mem_cons_of_mem _ hn))
    have hn' := wadd_neg (h8 n List.mem_cons_self) hpos hn I.range.2 (hsbrk ▸ I₁.range.2)
    rw [← hsbrk] at hn'
    have hle₁ : s₁.sbrk ≤ s.sbrk := by omega
    have hle : s'.sbrk ≤ s₁.sbrk := by omega
    obtain ⟨y, hy, -⟩ := pageAlign_spec I.range.2
    obtain ⟨x₁, hx₁, -⟩ := pageAlign_spec I₁.range.2
    obtain ⟨x, hx, -⟩ := pageAlign_spec (hle.trans I₁.range.2)
    have hm₁ := pageAlign_mono hle₁ I.range.2
    have hm := pageAlign_mono hle I₁.range.2
    have hown₁ : ∀ p, s₁.owner p = if pageAlign s₁.sbrk ≤ 4096 * p then 0 else s.owner p := by
      obtain ⟨r, fuel, -, -, hs₁, -, ho⟩ := hstep
      intro p
      rw [ho, hs₁]
    simp only [hy, hx₁, hx] at hm₁ hm hown hown₁ hperm hpages ⊢
    refine ⟨hA', ?_, fun p => ?_, ?_⟩
    · rw [List.sum_cons]
      omega
    · rw [hown, hown₁]
      by_cases hp : 4096 * x ≤ 4096 * p
      · rw [if_pos hp, if_pos hp]
      · rw [if_neg hp, if_neg hp, if_neg (by omega)]
    · rw [hpages] at hperm
      have hdiv : ∀ z, 4096 * z / 4096 = z := fun z => Nat.mul_div_cancel_left z (by norm_num)
      simp only [hdiv] at hperm ⊢
      have hsame : ownedPages s₁.owner x x₁ = ownedPages s.owner x x₁ := by
        refine gather_congr (fun p _ hp => ?_)
        have hp₁ : s₁.owner p = s.owner p := (hown₁ p).trans (if_neg (by omega))
        simp only [hp₁]
      have hsplit : ownedPages s.owner x y = ownedPages s.owner x x₁ ++ ownedPages s.owner x₁ y :=
        gather_split (by omega) (by omega)
      rw [hsame, List.append_assoc] at hperm
      rw [hsplit]
      exact hperm.trans (List.perm_append_comm.append_left _)

/-! ## 5. The contract -/

/-- Nothing is mapped above the break, and below it what was touched. -/
structure BreakSound (C : MmuCtx) (s : BreakState) : Prop where
  above : ∀ p < 2 ^ 20, pageAlign s.sbrk ≤ 4096 * p → pteAt s.mmu C.lvl1 p = 0
  kept : ∀ p < 2 ^ 20, s.owner p ≠ 0 →
    srmmuGetPaPage s.mmu C.ctxs C.num (4096 * p) = .ok (s.owner p)
  only : ∀ p < 2 ^ 20, pteAt s.mmu C.lvl1 p ≠ 0 → s.owner p ≠ 0

/-- **Break and faults**: the mapped pages are those in use, each accepted increment returns, and a
sequence of decrements gives back the same pages as one by their sum. -/
theorem break_sound (h : (breakSystem C total).Reachable (BreakOp.Clean C) s) :
    BreakSound C s ∧
    (∀ increment r, kernelSbrk (kernelBounds s.sbrk) (s.freeBytes total) increment = some r →
      ∃ s', BreakStep C total s (.sbrk increment) s') ∧
    ∀ ns s₁ s₂, (∀ n ∈ ns, 8 ∣ n) → Shrinks C total s ns s₁ → Shrinks C total s [ns.sum] s₂ →
      s₁.mmu.pages.Perm s₂.mmu.pages ∧ s₁.sbrk = s₂.sbrk ∧
        ∀ p < 2 ^ 20, (pteAt s₁.mmu C.lvl1 p = pteAt s₂.mmu C.lvl1 p) := by
  obtain ⟨A, I⟩ := BreakInv.of_reachable h
  refine ⟨⟨fun p hp hle => ?_, fun p hp hne => ?_, fun p hp hne => ?_⟩,
    fun _ _ hr => I.returns hr, fun ns s₁ s₂ h8 h₁ h₂ => ?_⟩
  · refine (I.pteAt_eq_zero_iff hp).mpr ?_
    by_contra hne
    exact absurd (I.below p hne) (not_lt.mpr hle)
  · have hva : 4096 * p < 2 ^ 32 := by omega
    have hdiv : 4096 * p / 4096 = p := Nat.mul_div_cancel_left p (by norm_num)
    have hpa : srmmuPteToAddr (A.page (4096 * p / 4096)) = s.owner p := by
      rw [hdiv, ← I.good.pteAt_eq hp]
      exact I.translates hp hne
    rw [C.getPaPage, I.good.getPaPage hva]
    exact congrArg Except.ok hpa
  · exact fun h0 => hne ((I.pteAt_eq_zero_iff hp).mpr h0)
  · obtain ⟨⟨A₁, I₁⟩, hsum₁, hown₁, hperm₁⟩ := I.shrinks h₁ h8
    have h8' : ∀ n ∈ [ns.sum], 8 ∣ n := by
      intro n hn
      rw [List.mem_singleton.mp hn]
      exact List.dvd_sum h8
    obtain ⟨⟨A₂, I₂⟩, hsum₂, hown₂, hperm₂⟩ := I.shrinks h₂ h8'
    rw [List.sum_singleton] at hsum₂
    have hsbrk : s₁.sbrk = s₂.sbrk := by omega
    rw [← hsbrk] at hown₂ hperm₂
    refine ⟨hperm₁.trans hperm₂.symm, hsbrk, fun p hp => ?_⟩
    rw [I₁.good.pteAt_eq hp, I₂.good.pteAt_eq hp, I₁.pages p hp, I₂.pages p hp, hown₁, hown₂]

/-! ## 6. Memory that lies in high memory -/

/-- An increment below the break is a word from `2 ^ 32 - (vmallocEnd - vmallocStart)` on, and
`mm_free_bytes` would have to be at least as large. -/
theorem kernelSbrk_up {sbrk freeBytes n : Nat} {r : SbrkResult}
    (hrange : vmallocStart ≤ sbrk ∧ sbrk ≤ vmallocEnd) (hfree : freeBytes ≤ 2 ^ 32 - highmemStart)
    (hr : kernelSbrk (kernelBounds sbrk) freeBytes n = some r) :
    sbrk ≤ r.sbrk ∧ r.release = none := by
  obtain ⟨hnew, hlo, hhi, hrelease⟩ := kernelSbrk_spec hrange.2 hrange.1 hr
  have hup : sbrk ≤ r.sbrk := by
    by_cases hn : n = 0
    · subst hn
      rw [kernelSbrk, if_pos rfl] at hr
      obtain rfl := Option.some.inj hr
      exact Nat.le_refl _
    · have hok : SbrkAccepts (kernelBounds sbrk) freeBytes n := by
        by_contra hno
        rw [kernelSbrk_none hn hno] at hr
        cases hr
      obtain ⟨hle, -⟩ := hok
      unfold vmallocStart at hrange hlo
      unfold vmallocEnd at hrange hhi
      unfold highmemStart at hfree
      unfold wadd at hnew
      omega
  refine ⟨hup, ?_⟩
  have hmono := pageAlign_mono hup hhi
  exact hrelease.trans (if_neg (by omega))

/-- **The break never goes down** where the physical memory lies above `HIGHMEM_START`. -/
theorem break_only_grows {ok : BreakState → BreakOp → Prop} {increment : Nat} {r : SbrkResult}
    (h : (breakSystem C total).Reachable ok s) (htotal : 4096 * total ≤ 2 ^ 32 - highmemStart)
    (hr : kernelSbrk (kernelBounds s.sbrk) (s.freeBytes total) increment = some r) :
    s.sbrk ≤ r.sbrk ∧ r.release = none := by
  have hfree : ∀ s : BreakState, s.used ≤ total → s.freeBytes total ≤ 2 ^ 32 - highmemStart := by
    intro s hs
    unfold highmemStart at htotal
    have hw : wsub total s.used = total - s.used := wsub_of_le (by omega) hs
    have hle : (total - s.used) * 4096 % 2 ^ 32 ≤ (total - s.used) * 4096 := Nat.mod_le _ _
    rw [BreakState.freeBytes, mmFreeBytes, pageSize, hw]
    unfold highmemStart
    omega
  have hinv : s.used ≤ total ∧ vmallocStart ≤ s.sbrk ∧ s.sbrk ≤ vmallocEnd := by
    refine h.invariant (I := fun s => s.used ≤ total ∧ vmallocStart ≤ s.sbrk ∧ s.sbrk ≤ vmallocEnd)
      (fun s hs => ?_) ?_
    · rw [hs.1]
      exact ⟨hs.2.1, by decide, by decide⟩
    · rintro s o s' ⟨hused, hrange⟩ - hstep
      cases o with
      | sbrk n =>
        obtain ⟨r, fuel, hr, hrel, hsbrk, hused', -⟩ := hstep
        obtain ⟨-, hlo, hhi, -⟩ := kernelSbrk_spec hrange.2 hrange.1 hr
        rw [(kernelSbrk_up hrange (hfree s hused) hr).2] at hrel
        have hsame : s.mmu = s'.mmu := Except.ok.inj hrel
        unfold highmemStart at htotal
        rw [← hsame, Nat.sub_self, wsub_of_le (by omega) (Nat.zero_le _)] at hused'
        rw [hsbrk]
        exact ⟨hused'.trans_le hused, hlo, hhi⟩
      | fault addr alloc answers =>
        obtain ⟨-, hanswer, -, ret, htrap, hsbrk, hused', -⟩ := hstep
        obtain ⟨hlt, -⟩ := hanswer.resolve_left (mmMmuTrap_ok htrap).2.2.1
        unfold highmemStart at htotal
        rw [wadd_of_lt (by omega)] at hused'
        exact ⟨hused'.trans_le hlt, hsbrk ▸ hrange⟩
      | others used =>
        obtain ⟨hle, rfl⟩ := hstep
        exact ⟨hle, hrange⟩
  exact kernelSbrk_up hinv.2 (hfree s hinv.1) hr

end Break

/-! ### Runs on the empty context -/

/-- The state that a page fault leads to, where it returns. -/
def BreakState.touched (C : MmuCtx) (s : BreakState) (addr alloc : Nat) (answers : List Nat) :
    BreakState :=
  match mmMmuTrap { s.mmu with answers := answers } C.ctxs C.num (kernelBounds s.sbrk) addr alloc with
  | .ok (m, ret) =>
    ⟨m, s.sbrk, wadd s.used 1,
      if ret = 0 then Function.update s.owner (addr / 4096) alloc else s.owner⟩
  | .error _ => s

theorem BreakState.touched_step {C : MmuCtx} {total : Nat} {s : BreakState} {addr alloc : Nat}
    {answers : List Nat} (hpte : pteAt s.mmu C.lvl1 (addr / 4096) = 0)
    (hpage : PageAnswer total s.used alloc) (hans : AnswersOk C.lvl1 s.mmu.heap answers)
    (hok : (mmMmuTrap { s.mmu with answers := answers } C.ctxs C.num (kernelBounds s.sbrk) addr
      alloc).isOk = true) :
    (breakSystem C total).step s (.fault addr alloc answers) (s.touched C addr alloc answers) := by
  refine ⟨hpte, hpage, hans, ?_⟩
  unfold touched
  cases hres : mmMmuTrap { s.mmu with answers := answers } C.ctxs C.num (kernelBounds s.sbrk) addr
      alloc with
  | error e =>
    rw [hres] at hok
    cases hok
  | ok x => exact ⟨x.2, rfl, rfl, rfl, rfl⟩

/-- 64 MiB of memory, the break at `brk`, and nothing mapped. -/
def freshBreak (brk : Nat) : BreakState := ⟨emptyMmu.mmu, brk, 0, fun _ => 0⟩

theorem freshBreak_reachable {ok : BreakState → BreakOp → Prop} {brk n : Nat}
    (hok : ok (freshBreak vmallocStart) (.sbrk n))
    (hr : kernelSbrk (kernelBounds vmallocStart) (mmFreeBytes ⟨0x4000, 0, 0⟩) n =
      some ⟨vmallocStart, brk, none⟩) :
    (breakSystem emptyCtx 0x4000).Reachable ok (freshBreak brk) := by
  have hinit : (breakSystem emptyCtx 0x4000).init (freshBreak vmallocStart) :=
    ⟨rfl, Nat.zero_le _, rfl, fun _ => 0, .init emptyMmu_init⟩
  refine .step (.init hinit) hok ⟨⟨vmallocStart, brk, none⟩, 0, hr, rfl, rfl, ?_, ?_⟩
  · show 0 = wsub 0 (emptyMmu.mmu.pages.length - emptyMmu.mmu.pages.length)
    rw [Nat.sub_self]
    rfl
  · funext p
    exact (ite_self _).symm

/-- The page at the start of the heap is touched. -/
theorem freshBreak_touched {brk alloc lvl3 : Nat}
    (hanswer : AnswersOk emptyCtx.lvl1 [] [0x20008, lvl3])
    (hpage : PageAnswer 0x4000 0 alloc)
    (hok : (mmMmuTrap { emptyMmu.mmu with answers := [0x20008, lvl3] } emptyCtx.ctxs emptyCtx.num
      (kernelBounds brk) 0x01000000 alloc).isOk = true) :
    (breakSystem emptyCtx 0x4000).step (freshBreak brk) (.fault 0x01000000 alloc [0x20008, lvl3])
      ((freshBreak brk).touched emptyCtx 0x01000000 alloc [0x20008, lvl3]) := by
  refine BreakState.touched_step ?_ hpage hanswer hok
  show pteAt emptyMmu.mmu emptyCtx.lvl1 (0x01000000 / 4096) = 0
  decide

theorem break_sound_touched : BreakSound emptyCtx
    ((freshBreak 0x01001000).touched emptyCtx 0x01000000 0x40000000 [0x20008, 0x30008]) := by
  have hup : BreakOp.Clean emptyCtx (freshBreak vmallocStart) (.sbrk 0x1000) :=
    ⟨fun h => absurd h (by decide), fun h => absurd h (by decide)⟩
  have hfault : BreakOp.Clean emptyCtx (freshBreak 0x01001000)
      (.fault 0x01000000 0x40000000 [0x20008, 0x30008]) := by
    intro a ha
    simp only [List.mem_cons, List.not_mem_nil, or_false] at ha
    rcases ha with rfl | rfl <;> decide
  have hstep := @freshBreak_touched 0x01001000 0x40000000 0x30008
    ⟨⟨by decide, by decide, by decide, by simp, by decide⟩,
      ⟨by decide, by decide, by decide, by simp, by decide⟩, trivial⟩ (.inr (by decide))
    (by decide +kernel)
  exact (break_sound (.step (freshBreak_reachable hup (by decide)) hfault hstep)).1

/-- A page below the break is lost: the table of the second fault starts at a multiple of 256, and
its marker is the entry of the first page. -/
theorem break_loses_page : ¬ ∀ s, (breakSystem emptyCtx 0x4000).Reachable (fun _ _ => True) s →
    BreakSound emptyCtx s := by
  intro hall
  let s₁ := (freshBreak 0x02001000).touched emptyCtx 0x01000000 0x40000000 [0x20008, 0x103f8]
  have hgrown : (breakSystem emptyCtx 0x4000).Reachable (fun _ _ => True) (freshBreak 0x02001000) :=
    freshBreak_reachable (n := 0x01001000) trivial (by decide)
  have hfirst := hgrown.step trivial (@freshBreak_touched 0x02001000 0x40000000 0x103f8
    ⟨⟨by decide, by decide, by decide, by simp, by decide⟩,
      ⟨by decide, by decide, by decide, by simp, by decide⟩, trivial⟩ (.inr (by decide))
    (by decide +kernel))
  have hheap : s₁.mmu.heap = [(0x103f8, 512), (0x20008, 512)] := by decide +kernel
  have hanswers : AnswersOk emptyCtx.lvl1 [(0x103f8, 512), (0x20008, 512)] [0x10000, 0x30008] :=
    ⟨⟨by decide, by decide, by decide, by simp, by decide⟩,
      ⟨by decide, by decide, by decide, by simp, by decide⟩, trivial⟩
  have hsecond : (breakSystem emptyCtx 0x4000).step s₁
      (.fault 0x02000000 0x40001000 [0x10000, 0x30008])
      (s₁.touched emptyCtx 0x02000000 0x40001000 [0x10000, 0x30008]) :=
    BreakState.touched_step (by decide +kernel) (.inr (by decide +kernel)) (hheap ▸ hanswers)
      (by decide +kernel)
  have hkept := (hall _ (hfirst.step trivial hsecond)).kept 0x1000 (by decide) (by decide +kernel)
  exact absurd hkept (by decide +kernel)

end FlightOs
