/-
# Runs of a context's page tables

One context is mapped and released by calls of `srmmu_do_small_mapping`,
`srmmu_do_large_mapping` and `srmmu_release_pages`, in any order.  The state of a run carries,
next to the memory, what "the most recent mapping not released since" refers to: for each page
the physical address that a caller last mapped there.

* `pteAt`, `largeAt`: the translation of a page, as the walk through the tables finds it.
* `ReleaseFits`: what a range and the tables have to be like for a release to do what is asked.
* `Good.release_iff`: it does exactly then.
* `Good.small`, `Good.large`, `Good.release`: what a step of a run leads to.

A mapping call is handed the answers of the allocator.  They are those of a valid allocator by
`AnswersOk`; what else a run may contain is left to the theorems in `Srmmu/Contract.lean`.
-/
import FlightOs.Lib.System
import FlightOs.Srmmu.Sweep

namespace FlightOs

/-! ## 1. Translations -/

/-- The entry of a small page, zero where no table holds one. -/
def pteAt (s : Srmmu) (lvl1 p : Nat) : Nat :=
  let lvl3 := mmuFindTblLvl3 s lvl1 (4096 * p)
  if lvl3 = 0 then 0 else s.entry lvl3 (srmmuLvl3GetTblOffset (4096 * p))

/-- The entry of the large page of a region, zero where level 1 holds none. -/
def largeAt (s : Srmmu) (lvl1 r : Nat) : Nat :=
  if isPtEntry (s.entry lvl1 r) then s.entry lvl1 r else 0

/-- The page at which the walk of a release that starts at `c` enters the region `r`. -/
def regionEntryAt (s : Srmmu) (lvl1 c r : Nat) : Nat :=
  enter 4096 (fun r => mmuFindTblLvl2 s lvl1 (16777216 * r) ≠ 0) c r

/-- The walk from `c` up to `e` meets the small page `p`. -/
def MetAt (s : Srmmu) (lvl1 c e p : Nat) : Prop :=
  c / 4096 ≤ p / 4096 ∧
    Hit 64 (fun q => mmuFindTblLvl3 s lvl1 (262144 * q) ≠ 0) (regionEntryAt s lvl1 c (p / 4096)) e p

instance (s : Srmmu) (lvl1 c e p : Nat) : Decidable (MetAt s lvl1 c e p) :=
  inferInstanceAs (Decidable (_ ∧ _))

/-- The page `p` lies in a range of addresses. -/
def InRange (va vaEnd p : Nat) : Prop := va ≤ 4096 * p ∧ 4096 * p < vaEnd

instance (va vaEnd p : Nat) : Decidable (InRange va vaEnd p) := inferInstanceAs (Decidable (_ ∧ _))

/-- The region `r` and a range of addresses have a page in common. -/
def RegionMeets (va vaEnd r : Nat) : Prop :=
  max va (16777216 * r) < min vaEnd (16777216 * (r + 1))

instance (va vaEnd r : Nat) : Decidable (RegionMeets va vaEnd r) :=
  inferInstanceAs (Decidable (_ < _))

/-- What a range asks to be given back: region by region, the large page or the small pages. -/
def pagesOfRange (s : Srmmu) (lvl1 va vaEnd : Nat) : List Nat :=
  gather 0 256 fun r =>
    if largeAt s lvl1 r ≠ 0 then
      if RegionMeets va vaEnd r then [srmmuPteToAddr (largeAt s lvl1 r)] else []
    else gather (4096 * r) (4096 * (r + 1)) fun p =>
      if InRange va vaEnd p ∧ pteAt s lvl1 p ≠ 0 then [srmmuPteToAddr (pteAt s lvl1 p)] else []

/-- A release that does what is asked: the pages of the range are given back, once each, and are
gone, and every other page has the translation it had. -/
structure SrmmuReleased (s s' : Srmmu) (lvl1 va vaEnd : Nat) : Prop where
  pages : s'.pages = s.pages ++ pagesOfRange s lvl1 va vaEnd
  gone : ∀ p, InRange va vaEnd p → pteAt s' lvl1 p = 0 ∧ largeAt s' lvl1 (p / 4096) = 0
  kept : ∀ p < 2 ^ 20, ¬ InRange va vaEnd p → pteAt s' lvl1 p = pteAt s lvl1 p ∧
    largeAt s' lvl1 (p / 4096) = largeAt s lvl1 (p / 4096)

/-- When a release does what is asked: the walk stays below the topmost region, it meets every
small page that is mapped in the range, and a large page that meets the range lies in it. -/
structure ReleaseFits (s : Srmmu) (lvl1 va vaEnd : Nat) : Prop where
  ends : vaEnd / 4096 ≤ regionEntryAt s lvl1 (va / 4096) 255
  met : ∀ p, InRange va vaEnd p → pteAt s lvl1 p ≠ 0 →
    MetAt s lvl1 (va / 4096) (vaEnd / 4096) p
  whole : ∀ r < 256, RegionMeets va vaEnd r → largeAt s lvl1 r ≠ 0 →
    va ≤ 16777216 * r ∧ 16777216 * (r + 1) ≤ vaEnd

section Read

variable {ex : Prop} {s : Srmmu} {lvl1 : Nat} {A : PgTree}

theorem Good.pteAt_eq (h : Good ex s lvl1 A) {p : Nat} (hp : p < 2 ^ 20) :
    pteAt s lvl1 p = A.page p := by
  have hdiv : 4096 * p / 2 ^ 18 = p / 64 := by omega
  have hoff : srmmuLvl3GetTblOffset (4096 * p) = p % 64 := by
    rw [srmmuLvl3GetTblOffset]
    omega
  rw [pteAt, h.findTblLvl3 (by omega), hdiv, hoff]
  cases hU : A.tbl (.lvl3 (p / 64)) with
  | none => rw [PgTree.page_of_none hU, Option.getD_none, if_pos rfl]
  | some U =>
    have hU0 : U ≠ 0 := by
      have := h.rep.bounds hU
      omega
    rw [PgTree.page_of_some hU, Option.getD_some, if_neg hU0]
    exact h.rep.entry_eq hU (Nat.mod_lt _ (by norm_num))

theorem Good.largeAt_eq (h : Good ex s lvl1 A) {r : Nat} (hr : r < 256) :
    largeAt s lvl1 r = A.large r := by
  rw [largeAt, PgTree.large, h.rep.entry_top hr]

/-- A table that is found is one of the tree. -/
theorem Good.findTblLvl2_iff (h : Good ex s lvl1 A) {va : Nat} (hva : va < 2 ^ 32) :
    mmuFindTblLvl2 s lvl1 va ≠ 0 ↔ A.hasMid (va / 2 ^ 24) = true := by
  rw [h.findTblLvl2 hva, PgTree.hasMid]
  cases hT : A.tbl (.lvl2 (va / 2 ^ 24)) with
  | none => simp
  | some T =>
    have := h.rep.bounds hT
    simp only [Option.getD_some, Option.isSome_some, iff_true]
    omega

theorem Good.findMid_iff (h : Good ex s lvl1 A) {r : Nat} (hr : r < 256) :
    mmuFindTblLvl2 s lvl1 (16777216 * r) ≠ 0 ↔ A.hasMid r = true := by
  have hdiv : 16777216 * r / 2 ^ 24 = r := by omega
  rw [h.findTblLvl2_iff (by omega), hdiv]

theorem Good.findLeaf_iff (h : Good ex s lvl1 A) {q : Nat} (hq : q < 2 ^ 14) :
    mmuFindTblLvl3 s lvl1 (262144 * q) ≠ 0 ↔ A.hasLeaf q = true := by
  have hdiv : 262144 * q / 2 ^ 18 = q := by omega
  rw [h.findTblLvl3 (by omega), hdiv, PgTree.hasLeaf]
  cases hU : A.tbl (.lvl3 q) with
  | none => simp
  | some U =>
    have := h.rep.bounds hU
    simp only [Option.getD_some, Option.isSome_some, iff_true]
    omega

theorem Good.regionEntryAt_eq (h : Good ex s lvl1 A) {c r : Nat} (hr : r < 256) :
    regionEntryAt s lvl1 c r = A.regionEntry c r :=
  enter_congr (fun _ _ hr' => h.findMid_iff (hr'.trans hr))

theorem Good.metAt_iff (h : Good ex s lvl1 A) {c e p : Nat} (hp : p < 2 ^ 20) :
    MetAt s lvl1 c e p ↔ A.Visited c e p := by
  rw [MetAt, PgTree.Visited, h.regionEntryAt_eq (by omega)]
  exact and_congr_right (fun _ => Hit.congr (fun q _ hq => h.findLeaf_iff (by omega)))

end Read

/-! ## 2. A release -/

section Release

variable {ex : Prop} {s s' : Srmmu} {lvl1 c e : Nat} {A A' : PgTree}

theorem inRange_iff {p : Nat} : InRange (4096 * c) (4096 * e) p ↔ c ≤ p ∧ p < e := by
  rw [InRange]
  omega

theorem regionMeets_iff {r : Nat} : RegionMeets (4096 * c) (4096 * e) r ↔
    ∃ p, p / 4096 = r ∧ InRange (4096 * c) (4096 * e) p := by
  simp only [inRange_iff, RegionMeets]
  constructor
  · intro h
    exact ⟨max c (4096 * r), by omega, by omega, by omega⟩
  · rintro ⟨p, rfl, h1, h2⟩
    omega

/-- The walk stays in its range. -/
theorem PgTree.Visited.inRange {p : Nat} (h : A.Visited c e p) :
    InRange (4096 * c) (4096 * e) p := by
  have h1 : c ≤ A.regionEntry c (p / 4096) := le_of_enter (by norm_num) h.1
  exact inRange_iff.mpr ⟨h1.trans h.2.1, h.2.2.1⟩

theorem PgTree.Reached.meets {r : Nat} (h : A.Reached c e r) :
    RegionMeets (4096 * c) (4096 * e) r := by
  have h1 : c ≤ A.regionEntry c r := le_of_enter (by norm_num) h.1
  have h2 : 4096 * r ≤ A.regionEntry c r := le_enter
  have h3 : A.regionEntry c r ≤ 4096 * r + c % 4096 := enter_le
  exact regionMeets_iff.mpr ⟨A.regionEntry c r, by omega, inRange_iff.mpr ⟨h1, h.2⟩⟩

/-- A region that lies in the range is one that the walk gets to. -/
theorem PgTree.reached_of_whole {r : Nat} (h1 : 4096 * c ≤ 16777216 * r)
    (h2 : 16777216 * (r + 1) ≤ 4096 * e) : A.Reached c e r := by
  have h3 : A.regionEntry c r ≤ 4096 * r + c % 4096 := enter_le
  exact ⟨by omega, by omega⟩

/-- What the walk has done, where the range fits the tables. -/
theorem Released.released (h : Released s s' A A' c e) (hs : Good ex s lvl1 A)
    (hs' : Good ex s' lvl1 A') (he : e < 2 ^ 20)
    (hfit : ReleaseFits s lvl1 (4096 * c) (4096 * e)) :
    SrmmuReleased s s' lvl1 (4096 * c) (4096 * e) := by
  have hmet : ∀ p, InRange (4096 * c) (4096 * e) p → A.page p ≠ 0 → A.Visited c e p := by
    intro p hp hne
    have hp20 : p < 2 ^ 20 := (inRange_iff.mp hp).2.trans he
    have := hfit.met p hp (hs.pteAt_eq hp20 ▸ hne)
    rw [Nat.mul_div_cancel_left c (by norm_num), Nat.mul_div_cancel_left e (by norm_num)] at this
    exact (hs.metAt_iff hp20).mp this
  have hreach : ∀ r < 256, A.large r ≠ 0 → (A.Reached c e r ↔ RegionMeets (4096 * c) (4096 * e) r) := by
    intro r hr hne
    refine ⟨fun hh => hh.meets, fun hm => ?_⟩
    obtain ⟨h1, h2⟩ := hfit.whole r hr hm (hs.largeAt_eq hr ▸ hne)
    exact PgTree.reached_of_whole h1 h2
  refine ⟨?_, fun p hp => ?_, fun p hp hno => ?_⟩
  · rw [h.pages, pagesOfRange]
    congr 1
    have hrest : ∀ r, r < c / 4096 → ¬ RegionMeets (4096 * c) (4096 * e) r := by
      intro r hr hm
      obtain ⟨p, rfl, hp⟩ := regionMeets_iff.mp hm
      have := (inRange_iff.mp hp).1
      omega
    rw [gather_clip (Nat.zero_le (c / 4096)) (le_refl 256)]
    · refine gather_congr (fun r _ hr => ?_)
      rw [PgTree.regionLog, ← hs.largeAt_eq hr]
      split
      next hne =>
        have hiff := hreach r hr (hs.largeAt_eq hr ▸ hne)
        simp only [hiff]
      next =>
        refine gather_congr (fun p h1 h2 => ?_)
        have hp20 : p < 2 ^ 20 := by omega
        rw [hs.pteAt_eq hp20, PgTree.smallLog]
        by_cases h0 : A.page p = 0
        · simp [h0]
        · have hiff : A.Visited c e p ↔ InRange (4096 * c) (4096 * e) p :=
            ⟨fun hv => hv.inRange, fun hp => hmet p hp h0⟩
          simp only [hiff, h0, ne_eq, not_false_iff, and_true, if_false]
    · intro r _ _ hr
      have hno := hrest r (by omega)
      rw [if_neg hno, gather_eq_nil, ite_self]
      intro p h1 h2
      refine if_neg (fun hp => hno ?_)
      exact regionMeets_iff.mpr ⟨p, by omega, hp.1⟩
  · have hp20 : p < 2 ^ 20 := (inRange_iff.mp hp).2.trans he
    rw [hs'.pteAt_eq hp20, hs'.largeAt_eq (by omega), h.large _ (by omega)]
    constructor
    · by_cases hv : A.Visited c e p
      · exact h.gone p hv
      · rw [h.page p hv]
        by_contra hne
        exact hv (hmet p hp hne)
    · split
      next => rfl
      next hno =>
        by_contra hne
        exact hno ((hreach _ (by omega) hne).mpr (regionMeets_iff.mpr ⟨p, rfl, hp⟩))
  · rw [hs'.pteAt_eq hp, hs.pteAt_eq hp, hs'.largeAt_eq (by omega), hs.largeAt_eq (by omega),
      h.large _ (by omega), h.page p (fun hv => hno hv.inRange)]
    refine ⟨rfl, ?_⟩
    split
    next hr =>
      by_contra hne
      obtain ⟨h1, h2⟩ := hfit.whole (p / 4096) (by omega) hr.meets
        (hs.largeAt_eq (r := p / 4096) (by omega) ▸ Ne.symm hne)
      exact hno (inRange_iff.mpr ⟨by omega, by omega⟩)
    next => rfl

/-- Conversely, where the range does not fit, the walk has left a page or taken one too many. -/
theorem Released.fits (h : Released s s' A A' c e) (hs : Good ex s lvl1 A)
    (hs' : Good ex s' lvl1 A') (he : e < 2 ^ 20) (hend : e ≤ A.regionEntry c 255)
    (hrel : SrmmuReleased s s' lvl1 (4096 * c) (4096 * e)) :
    ReleaseFits s lvl1 (4096 * c) (4096 * e) := by
  have hc : 4096 * c / 4096 = c := Nat.mul_div_cancel_left c (by norm_num)
  have he' : 4096 * e / 4096 = e := Nat.mul_div_cancel_left e (by norm_num)
  refine ⟨?_, fun p hp hne => ?_, fun r hr hm hne => ?_⟩
  · rw [hc, he', hs.regionEntryAt_eq (by norm_num)]
    exact hend
  · have hp20 : p < 2 ^ 20 := (inRange_iff.mp hp).2.trans he
    rw [hc, he', hs.metAt_iff hp20]
    by_contra hv
    have hz := (hrel.gone p hp).1
    rw [hs'.pteAt_eq hp20, h.page p hv, ← hs.pteAt_eq hp20] at hz
    exact hne hz
  · -- the large page is gone, and so every page of the region is in the range
    obtain ⟨p, rfl, hp⟩ := regionMeets_iff.mp hm
    have hz := (hrel.gone p hp).2
    have hall : ∀ i < 4096, InRange (4096 * c) (4096 * e) (4096 * (p / 4096) + i) := by
      intro i hi
      by_contra hno
      have hdiv : (4096 * (p / 4096) + i) / 4096 = p / 4096 := by omega
      have hk := (hrel.kept _ (by omega) hno).2
      rw [hdiv, hz] at hk
      exact hne hk.symm
    have h0 := inRange_iff.mp (hall 0 (by norm_num))
    have h1 := inRange_iff.mp (hall 4095 (by norm_num))
    omega

/-- **When a release does what is asked**, from any well-formed tables. -/
theorem Good.release_iff (hs : Good ex s lvl1 A) (hc : c < 2 ^ 20) (he : e < 2 ^ 20) :
    (∃ fuel s', srmmuReleaseLvl1Pages fuel s lvl1 (4096 * c) (4096 * e) = .ok s' ∧
      SrmmuReleased s s' lvl1 (4096 * c) (4096 * e)) ↔
    ReleaseFits s lvl1 (4096 * c) (4096 * e) := by
  constructor
  · rintro ⟨fuel, s', hrel, hdone⟩
    have hend : e ≤ A.regionEntry c 255 := by
      by_contra hlt
      rw [hs.releaseLvl1Pages_diverges he hc (not_le.mp hlt)] at hrel
      cases hrel
    obtain ⟨s'', A', hrel', hgood, hreleased⟩ := hs.releaseLvl1Pages he hend (n := 257) (by omega)
    obtain rfl : s' = s'' := loop_unique hrel hrel'
    exact hreleased.fits hs hgood he hend hdone
  · intro hfit
    have hend : e ≤ A.regionEntry c 255 := by
      have := hfit.ends
      rwa [Nat.mul_div_cancel_left c (by norm_num), Nat.mul_div_cancel_left e (by norm_num),
        hs.regionEntryAt_eq (by norm_num)] at this
    obtain ⟨s', A', hrel, hgood, hreleased⟩ := hs.releaseLvl1Pages he hend (n := 257) (by omega)
    exact ⟨257, s', hrel, hreleased.released hs hgood he hfit⟩

end Release

/-! ## 3. The system -/

/-- A context that is registered. -/
structure MmuCtx where
  ctxs : MmuCtxs
  num : Nat
  lvl1 : Nat
  found : mmuFindCtx ctxs num = some lvl1
  fits : lvl1 + 1024 ≤ 2 ^ 32

/-- A run's state: the machine, and the physical address that a caller last mapped at each page
and has not released. -/
structure MmuState where
  mmu : Srmmu
  last : Nat → Nat

/-- The calls of a run, with the answers of the allocator. -/
inductive MmuOp
  | small (va pa perm : Nat) (answers : List Nat)
  | large (va pa perm : Nat)
  | release (va vaEnd : Nat)

/-- The arguments are words, aligned to the size of the page. -/
def MmuOp.Aligned : MmuOp → Prop
  | .small va pa perm _ => 4096 ∣ va ∧ va < 2 ^ 32 ∧ 4096 ∣ pa ∧ pa < 2 ^ 32 ∧ perm < 2 ^ 32
  | .large va pa perm =>
    16777216 ∣ va ∧ va < 2 ^ 32 ∧ 16777216 ∣ pa ∧ pa < 2 ^ 32 ∧ perm < 2 ^ 32
  | .release va vaEnd => 4096 ∣ va ∧ va < 2 ^ 32 ∧ 4096 ∣ vaEnd ∧ vaEnd < 2 ^ 32

/-- What a call leads to, if it returns. -/
def MmuStep (C : MmuCtx) (s : MmuState) : MmuOp → MmuState → Prop
  | .small va pa perm answers, s' =>
    AnswersOk C.lvl1 s.mmu.heap answers ∧ ∃ ret,
      srmmuDoSmallMapping { s.mmu with answers := answers } C.ctxs C.num va pa perm =
        .ok (s'.mmu, ret) ∧
      s'.last = if ret = 0 then Function.update s.last (va / 4096) pa else s.last
  | .large va pa perm, s' => ∃ ret,
    srmmuDoLargeMapping s.mmu C.ctxs C.num va pa perm = (s'.mmu, ret) ∧
    s'.last = fun p => if p / 4096 = va / 16777216 then 0 else s.last p
  | .release va vaEnd, s' => ∃ fuel,
    srmmuReleasePages fuel s.mmu C.ctxs C.num va vaEnd = .ok s'.mmu ∧
    s'.last = fun p => if InRange va vaEnd p then 0 else s.last p

/-- A context, from empty tables on. -/
def srmmuSystem (C : MmuCtx) : System MmuState MmuOp where
  init s := (∀ r < 256, s.mmu.mem (C.lvl1 + 4 * r) = 0) ∧ s.mmu.heap = [] ∧ s.last = fun _ => 0
  step s o s' := o.Aligned ∧ MmuStep C s o s'

/-- The count of the table that a mapping of `va` would use does not wrap. -/
def CountRoom (s : Srmmu) (lvl1 va : Nat) : Prop :=
  mmuFindTblLvl3 s lvl1 va ≠ 0 →
    ∀ slot, mmuRefSlot s (mmuFindTblLvl3 s lvl1 va) srmmuTblLvl3Align = .ok slot →
      s.mem slot ≠ 2 ^ 32 - 1

section Steps

variable {ex : Prop} {C : MmuCtx} {s s' : MmuState} {A : PgTree} {va vaEnd pa perm : Nat}
  {answers : List Nat}

theorem MmuCtx.num_le (C : MmuCtx) : ¬ C.ctxs.num < C.num := by
  intro h
  have hf := C.found
  rw [mmuFindCtx, if_pos h] at hf
  cases hf

theorem MmuCtx.smallMapping (C : MmuCtx) (s : Srmmu) :
    srmmuDoSmallMapping s C.ctxs C.num va pa perm = mapSmall s C.lvl1 va pa perm := by
  simp only [srmmuDoSmallMapping, if_neg C.num_le, C.found]

theorem MmuCtx.largeMapping (C : MmuCtx) (s : Srmmu) :
    srmmuDoLargeMapping s C.ctxs C.num va pa perm = (mapLarge s C.lvl1 va pa perm, 0) := by
  simp only [srmmuDoLargeMapping, if_neg C.num_le, C.found]

theorem MmuCtx.getPaPage (C : MmuCtx) (s : Srmmu) :
    srmmuGetPaPage s C.ctxs C.num va = .ok (getPaPage s C.lvl1 va) := by
  simp only [srmmuGetPaPage, C.found]

/-- Also an empty range is one that the loop has done with at once. -/
theorem MmuCtx.releasePages (C : MmuCtx) (s : Srmmu) (fuel : Nat) :
    srmmuReleasePages (fuel + 1) s C.ctxs C.num va vaEnd =
      srmmuReleaseLvl1Pages (fuel + 1) s C.lvl1 va vaEnd := by
  rw [srmmuReleasePages]
  split
  next h => exact (loop_done (releaseLvl1Round_end h) fuel).symm
  next h => simp only [C.found]

/-- A release that returns has gone through the loop. -/
theorem MmuCtx.releasePages_ok (C : MmuCtx) {s s' : Srmmu} {fuel : Nat}
    (h : srmmuReleasePages fuel s C.ctxs C.num va vaEnd = .ok s') :
    srmmuReleaseLvl1Pages (fuel + 1) s C.lvl1 va vaEnd = .ok s' := by
  cases fuel with
  | zero =>
    rw [srmmuReleasePages] at h
    split at h
    next hle =>
      rw [← h]
      exact loop_done (releaseLvl1Round_end hle) 0
    next =>
      simp only [C.found] at h
      cases h
  | succ n =>
    rw [C.releasePages] at h
    exact loop_mono h 1

theorem Good.init (h : (srmmuSystem C).init s) :
    Good ex s.mmu C.lvl1 ⟨fun _ => 0, fun _ => none, fun _ _ => 0, fun _ => 0⟩ := by
  obtain ⟨hzero, hheap, -⟩ := h
  refine ⟨⟨?_, fun r hr => hzero r hr, fun _ _ hk => (by cases hk), fun _ _ _ hk => (by cases hk)⟩,
    ?_, fun _ _ hk => (by cases hk), fun _ b hb => ?_⟩
  · rw [hheap]
    exact ⟨fun b hb => absurd hb List.not_mem_nil, fun b hb => absurd hb List.not_mem_nil,
      fun b hb => absurd hb List.not_mem_nil, C.fits⟩
  · exact ⟨fun _ _ hk => (by cases hk), fun _ _ hk => (by cases hk), fun _ _ _ => Or.inl rfl,
      fun _ _ hk => (by cases hk), fun _ hne => absurd rfl hne, fun _ _ hk => (by cases hk),
      fun _ _ hk => (by cases hk), fun _ _ hk => (by cases hk)⟩
  · rw [hheap] at hb
    exact absurd hb List.not_mem_nil

/-- **A small mapping**, whether it succeeds or not. -/
theorem Good.small (h : Good ex s.mmu C.lvl1 A) (hun : Unaligned answers)
    (hroom : CountRoom s.mmu C.lvl1 va) (hex : ex → pteAt s.mmu C.lvl1 (va / 4096) = 0)
    (hstep : (srmmuSystem C).step s (.small va pa perm answers) s') :
    ∃ (A' : PgTree) (ret : Int), Good ex s'.mmu C.lvl1 A' ∧ (∀ r, A'.large r = A.large r) ∧
      (∀ p, A'.page p = if ret = 0 ∧ p = va / 4096 then srmmuPte pa perm else A.page p) ∧
      s'.last = if ret = 0 then Function.update s.last (va / 4096) pa else s.last := by
  obtain ⟨⟨-, hva, -⟩, hok, ret, hmap, hlast⟩ := hstep
  rw [C.smallMapping] at hmap
  have h' : Good ex { s.mmu with answers := answers } C.lvl1 A :=
    ⟨h.rep.congr rfl rfl, h.shape, h.counted, fun hx => (h.owned hx).congr rfl (fun _ _ hk => hk)⟩
  have hroom' : ∀ U, A.tbl (.lvl3 (va / 2 ^ 18)) = some U →
      A.cnt (.lvl3 (va / 2 ^ 18)) + 1 < 2 ^ 32 := by
    intro U hU
    have hfind : mmuFindTblLvl3 s.mmu C.lvl1 va = U := h.rep.findLeaf h.shape hva hU
    have hU0 : U ≠ 0 := by
      have := h.rep.bounds hU
      omega
    obtain ⟨hslot, hmem⟩ := h.rep.refSlot_eq (n := srmmuTblLvl3Align) hU
    have hne := hroom (hfind.symm ▸ hU0) (wsub U 8) (hfind.symm ▸ hslot)
    rw [hmem] at hne
    have := (h.shape.cnt3 _ U hU).1
    omega
  have hex' : ex → A.page (va / 2 ^ 12) = 0 := by
    intro hx
    have hp : pteAt s.mmu C.lvl1 (va / 4096) = A.page (va / 4096) := h.pteAt_eq (by omega)
    exact hp ▸ hex hx
  obtain ⟨m, ret', A', hres, hgood, -, hlarge, hpage⟩ :=
    h'.mapSmall pa perm hok hun hva hroom' hex'
  obtain ⟨rfl, rfl⟩ : m = s'.mmu ∧ ret' = ret := by
    rw [hres] at hmap
    exact ⟨(Prod.mk.inj (Except.ok.inj hmap)).1, (Prod.mk.inj (Except.ok.inj hmap)).2⟩
  exact ⟨A', ret', hgood, hlarge, hpage, hlast⟩

/-- **A large mapping.** -/
theorem Good.large (h : Good ex s.mmu C.lvl1 A) (hex : ex → mmuFindTblLvl2 s.mmu C.lvl1 va = 0)
    (hstep : (srmmuSystem C).step s (.large va pa perm) s') :
    Good ex s'.mmu C.lvl1 (A.putLarge (va / 16777216) (srmmuPte pa perm)) ∧
      s'.last = fun p => if p / 4096 = va / 16777216 then 0 else s.last p := by
  obtain ⟨⟨-, hva, -⟩, ret, hmap, hlast⟩ := hstep
  rw [C.largeMapping] at hmap
  refine ⟨?_, hlast⟩
  rw [← (Prod.mk.inj hmap).1]
  refine h.mapLarge hva (fun hx => ?_)
  have hz := hex hx
  rw [h.findTblLvl2 hva] at hz
  cases hT : A.tbl (.lvl2 (va / 2 ^ 24)) with
  | none => rfl
  | some T =>
    have := h.rep.bounds hT
    rw [hT, Option.getD_some] at hz
    omega

/-- **A release that returns.** -/
theorem Good.release (h : Good ex s.mmu C.lvl1 A)
    (hstep : (srmmuSystem C).step s (.release va vaEnd) s') :
    ∃ A', Good ex s'.mmu C.lvl1 A' ∧ Released s.mmu s'.mmu A A' (va / 4096) (vaEnd / 4096) ∧
      s'.last = fun p => if InRange va vaEnd p then 0 else s.last p := by
  obtain ⟨⟨⟨c, rfl⟩, hc, ⟨e, rfl⟩, he⟩, fuel, hrel, hlast⟩ := hstep
  have hc20 : c < 2 ^ 20 := by omega
  have he20 : e < 2 ^ 20 := by omega
  rw [Nat.mul_div_cancel_left c (by norm_num), Nat.mul_div_cancel_left e (by norm_num)]
  have hrel' := C.releasePages_ok hrel
  have hend : e ≤ A.regionEntry c 255 := by
    by_contra hlt
    rw [h.releaseLvl1Pages_diverges he20 hc20 (not_le.mp hlt)] at hrel'
    cases hrel'
  obtain ⟨m, A', hres, hgood, hreleased⟩ := h.releaseLvl1Pages he20 hend (n := 257) (by omega)
  obtain rfl : s'.mmu = m := loop_unique hrel' hres
  exact ⟨A', hgood, hreleased, hlast⟩

end Steps

end FlightOs
