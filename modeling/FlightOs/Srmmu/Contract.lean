/-
# What the page tables promise

Three properties of every run of a context's page tables, each with the steps that a run may
contain for it to hold.

* `srmmu_release_iff`: a release gives back and unmaps the pages of its range, and nothing else,
  exactly when the range fits the tables.
* `srmmu_translates`: a lookup finds the page that was last mapped and not released.
* `srmmu_counts`: the counts next to the tables are the numbers of their entries in use, and the
  buffers that were not given back are those of the linked tables.

What they have in common is that the allocator hands out no buffer that starts at a multiple of
256: the words next to such a table are written outside of its buffer.
-/
import FlightOs.Srmmu.Run

namespace FlightOs

/-! ## 1. Steps -/

/-- A small mapping whose tables fit their buffers, and whose count does not wrap. -/
def MmuOp.Fits (C : MmuCtx) (s : MmuState) : MmuOp → Prop
  | .small va _ _ answers => Unaligned answers ∧ CountRoom s.mmu C.lvl1 va
  | .large .. => True
  | .release .. => True

/-- Also, flags that fit in an entry, and releases whose walk meets all there is in the range. -/
def MmuOp.Translates (C : MmuCtx) (s : MmuState) : MmuOp → Prop
  | .small va _ perm answers => Unaligned answers ∧ CountRoom s.mmu C.lvl1 va ∧ perm < 256
  | .large .. => True
  | .release va vaEnd => ∀ p, InRange va vaEnd p → pteAt s.mmu C.lvl1 p ≠ 0 →
    MetAt s.mmu C.lvl1 (va / 4096) (vaEnd / 4096) p

/-- Small mappings of pages that are not mapped, and large mappings of regions without tables. -/
def MmuOp.Counts (C : MmuCtx) (s : MmuState) : MmuOp → Prop
  | .small va _ _ answers => Unaligned answers ∧ pteAt s.mmu C.lvl1 (va / 4096) = 0
  | .large va _ _ => mmuFindTblLvl2 s.mmu C.lvl1 va = 0
  | .release .. => True

/-- The state that a small mapping leads to, where it returns. -/
def MmuState.mapped (C : MmuCtx) (s : MmuState) (va pa perm : Nat) (answers : List Nat) : MmuState :=
  match srmmuDoSmallMapping { s.mmu with answers := answers } C.ctxs C.num va pa perm with
  | .ok (m, ret) => ⟨m, if ret = 0 then Function.update s.last (va / 4096) pa else s.last⟩
  | .error _ => s

theorem MmuState.mapped_step {C : MmuCtx} {s : MmuState} {va pa perm : Nat} {answers : List Nat}
    (hal : (MmuOp.small va pa perm answers).Aligned) (hans : AnswersOk C.lvl1 s.mmu.heap answers)
    (hok : (srmmuDoSmallMapping { s.mmu with answers := answers } C.ctxs C.num va pa perm).isOk =
      true) :
    (srmmuSystem C).step s (.small va pa perm answers) (s.mapped C va pa perm answers) := by
  refine ⟨hal, hans, ?_⟩
  unfold mapped
  cases hres : srmmuDoSmallMapping { s.mmu with answers := answers } C.ctxs C.num va pa perm with
  | error e =>
    rw [hres] at hok
    cases hok
  | ok x => exact ⟨x.2, rfl, rfl⟩

/-! ### A context to try things on -/

/-- A context with an empty level 1 table at `0x8000`. -/
def emptyCtx : MmuCtx := ⟨⟨10, [(1, 0x8000)], []⟩, 1, 0x8000, by decide, by decide⟩

def emptyMmu : MmuState := ⟨⟨fun _ => 0, [], [], []⟩, fun _ => 0⟩

theorem emptyMmu_init : (srmmuSystem emptyCtx).init emptyMmu := ⟨fun _ _ => rfl, rfl, rfl⟩

/-- One page, at the start of the second region. -/
def onePage : MmuState := emptyMmu.mapped emptyCtx 0x01000000 0x40000000 0 [0x20008, 0x30008]

theorem onePage_step :
    (srmmuSystem emptyCtx).step emptyMmu (.small 0x01000000 0x40000000 0 [0x20008, 0x30008])
      onePage := by
  refine MmuState.mapped_step ⟨by decide, by decide, by decide, by decide, by decide⟩ ?_
    (by decide)
  refine ⟨⟨by decide, by decide, by decide, by simp [emptyMmu], by decide⟩,
    ⟨by decide, by decide, by decide, by simp [emptyMmu], by decide⟩, trivial⟩

/-! ## 2. Release -/

section Release

variable {C : MmuCtx} {s : MmuState}

theorem MmuRun.good (h : (srmmuSystem C).Reachable (MmuOp.Fits C) s) :
    ∃ A, Good False s.mmu C.lvl1 A := by
  refine h.invariant (I := fun s => ∃ A, Good False s.mmu C.lvl1 A)
    (fun s hs => ⟨_, Good.init hs⟩) ?_
  rintro s o s' ⟨A, hA⟩ hok hstep
  cases o with
  | small va pa perm answers =>
    obtain ⟨A', -, hA', -⟩ := hA.small hok.1 hok.2 False.elim hstep
    exact ⟨A', hA'⟩
  | large va pa perm => exact ⟨_, (hA.large False.elim hstep).1⟩
  | release va vaEnd =>
    obtain ⟨A', hA', -⟩ := hA.release hstep
    exact ⟨A', hA'⟩

/-- **When a release does what is asked.** -/
theorem srmmu_release_iff (h : (srmmuSystem C).Reachable (MmuOp.Fits C) s) {va vaEnd : Nat}
    (hal : (MmuOp.release va vaEnd).Aligned) :
    (∃ fuel s', srmmuReleasePages fuel s.mmu C.ctxs C.num va vaEnd = .ok s' ∧
      SrmmuReleased s.mmu s' C.lvl1 va vaEnd) ↔ ReleaseFits s.mmu C.lvl1 va vaEnd := by
  obtain ⟨A, hA⟩ := MmuRun.good h
  obtain ⟨⟨c, rfl⟩, hc, ⟨e, rfl⟩, he⟩ := hal
  rw [← hA.release_iff (by omega) (by omega)]
  constructor
  · rintro ⟨fuel, s', hrel, hdone⟩
    exact ⟨fuel + 1, s', C.releasePages_ok hrel, hdone⟩
  · rintro ⟨fuel, s', hrel, hdone⟩
    refine ⟨fuel + 1, s', ?_, hdone⟩
    rw [C.releasePages]
    exact loop_mono hrel 1

theorem onePage_fits : (srmmuSystem emptyCtx).Reachable (MmuOp.Fits emptyCtx) onePage := by
  have hok : MmuOp.Fits emptyCtx emptyMmu (.small 0x01000000 0x40000000 0 [0x20008, 0x30008]) :=
    ⟨by decide, fun hne => absurd (by decide) hne⟩
  exact .step (.init emptyMmu_init) hok onePage_step

/-- The page is released, with the empty one behind it. -/
theorem srmmu_release_iff_onePage : ∃ fuel s',
    srmmuReleasePages fuel onePage.mmu emptyCtx.ctxs emptyCtx.num 0x01000000 0x01002000 = .ok s' ∧
      SrmmuReleased onePage.mmu s' emptyCtx.lvl1 0x01000000 0x01002000 := by
  refine (srmmu_release_iff onePage_fits ⟨by decide, by decide, by decide, by decide⟩).mpr ?_
  refine ⟨by decide +kernel, fun p hp _ => ?_, fun r hr hm hne => ?_⟩
  · obtain ⟨h1, h2⟩ := hp
    obtain rfl | rfl : p = 4096 ∨ p = 4097 := by omega
    · decide
    · decide
  · obtain rfl : r = 1 := by
      rw [RegionMeets] at hm
      omega
    exact absurd (by decide +kernel) hne

/-- A range that starts off the grid of the large pages and crosses an empty region: the page
behind that region is passed over. -/
theorem srmmu_release_misses :
    (srmmuSystem emptyCtx).Reachable (MmuOp.Fits emptyCtx) onePage ∧
      (MmuOp.release 0x1000 0x02000000).Aligned ∧
      ¬ ∃ fuel s', srmmuReleasePages fuel onePage.mmu emptyCtx.ctxs emptyCtx.num 0x1000 0x02000000 =
        .ok s' ∧ SrmmuReleased onePage.mmu s' emptyCtx.lvl1 0x1000 0x02000000 := by
  refine ⟨onePage_fits, ⟨by decide, by decide, by decide, by decide⟩, ?_⟩
  rintro ⟨fuel, s', hrel, hdone⟩
  obtain ⟨A, hA⟩ := MmuRun.good onePage_fits
  have hfits : ReleaseFits onePage.mmu emptyCtx.lvl1 (4096 * 1) (4096 * 0x2000) :=
    (hA.release_iff (by decide) (by decide)).mp
      ⟨fuel + 1, s', emptyCtx.releasePages_ok hrel, hdone⟩
  have hmet := hfits.met 4096 (by decide) (by decide +kernel)
  exact absurd hmet (by decide +kernel)

end Release

/-! ## 3. Translation -/

section Translation

variable {C : MmuCtx} {s : MmuState}

/-- The tables translate each page to what was last mapped there. -/
def Translated (C : MmuCtx) (s : MmuState) : Prop :=
  ∃ A, Good False s.mmu C.lvl1 A ∧ ∀ p < 2 ^ 20, srmmuPteToAddr (A.page p) = s.last p

theorem Translated.release {s' : MmuState} {va vaEnd : Nat} (h : Translated C s)
    (hok : MmuOp.Translates C s (.release va vaEnd))
    (hstep : (srmmuSystem C).step s (.release va vaEnd) s') : Translated C s' := by
  obtain ⟨A, hA, hlast⟩ := h
  obtain ⟨A', hA', hrel, hlast'⟩ := hA.release hstep
  obtain ⟨⟨⟨c, rfl⟩, hc, ⟨e, rfl⟩, he⟩, -⟩ := hstep
  refine ⟨A', hA', fun p hp => ?_⟩
  simp only [MmuOp.Translates, Nat.mul_div_cancel_left _ (show 0 < 4096 by norm_num)] at hok hrel
  rw [hlast']
  by_cases hin : InRange (4096 * c) (4096 * e) p
  · have hz : A'.page p = 0 := by
      by_cases hv : A.Visited c e p
      · exact hrel.gone p hv
      · rw [hrel.page p hv]
        by_contra hne
        exact hv ((hA.metAt_iff hp).mp (hok p hin ((hA.pteAt_eq hp).symm ▸ hne)))
    rw [hz]
    exact (if_pos hin).symm
  · rw [hrel.page p (fun hv => hin hv.inRange), hlast p hp]
    exact (if_neg hin).symm

theorem MmuRun.translated (h : (srmmuSystem C).Reachable (MmuOp.Translates C) s) :
    Translated C s := by
  refine h.invariant (I := Translated C) (fun s hs => ⟨_, Good.init hs, fun p _ => ?_⟩) ?_
  · have hzero : srmmuPteToAddr 0 = 0 := by decide
    rw [hs.2.2]
    exact hzero
  · rintro s o s' hs hok hstep
    cases o with
    | small va pa perm answers =>
      obtain ⟨A, hA, hlast⟩ := hs
      obtain ⟨A', ret, hA', -, hpage, hlast'⟩ := hA.small hok.1 hok.2.1 False.elim hstep
      obtain ⟨⟨-, -, hpa, hpa', -⟩, -⟩ := hstep
      refine ⟨A', hA', fun p hp => ?_⟩
      rw [hpage p, hlast']
      by_cases hret : ret = 0
      · by_cases hpp : p = va / 4096
        · rw [if_pos ⟨hret, hpp⟩, if_pos hret, hpp, Function.update_self]
          exact srmmuPteToAddr_srmmuPte hpa hpa' hok.2.2
        · rw [if_neg (fun hh => hpp hh.2), if_pos hret, Function.update_of_ne hpp]
          exact hlast p hp
      · rw [if_neg (fun hh => hret hh.1), if_neg hret]
        exact hlast p hp
    | large va pa perm =>
      obtain ⟨A, hA, hlast⟩ := hs
      obtain ⟨hA', hlast'⟩ := hA.large False.elim hstep
      refine ⟨_, hA', fun p hp => ?_⟩
      rw [PgTree.page_putLarge, hlast']
      by_cases hr : p / 4096 = va / 16777216
      · simp only [if_pos hr]
        rfl
      · simp only [if_neg hr]
        exact hlast p hp
    | release va vaEnd => exact hs.release hok hstep

/-- **A lookup finds the page that was last mapped**, and a mapping changes no other page. -/
theorem srmmu_translates (h : (srmmuSystem C).Reachable (MmuOp.Translates C) s) :
    (∀ va < 2 ^ 32, srmmuGetPaPage s.mmu C.ctxs C.num va = .ok (s.last (va / 4096))) ∧
    ∀ va pa perm answers s', MmuOp.Translates C s (.small va pa perm answers) →
      (srmmuSystem C).step s (.small va pa perm answers) s' →
      ∀ va' < 2 ^ 32, va' / 4096 ≠ va / 4096 →
        srmmuGetPaPage s'.mmu C.ctxs C.num va' = srmmuGetPaPage s.mmu C.ctxs C.num va' := by
  obtain ⟨A, hA, hlast⟩ := MmuRun.translated h
  refine ⟨fun va hva => ?_, fun va pa perm answers s' hok hstep va' hva' hne => ?_⟩
  · have hp : srmmuPteToAddr (A.page (va / 4096)) = s.last (va / 4096) := hlast _ (by omega)
    rw [C.getPaPage, hA.getPaPage hva]
    exact congrArg Except.ok hp
  · obtain ⟨A', ret, hA', -, hpage, -⟩ := hA.small hok.1 hok.2.1 False.elim hstep
    rw [C.getPaPage, C.getPaPage, hA'.getPaPage hva', hA.getPaPage hva', hpage,
      if_neg (fun hh => hne hh.2)]

theorem onePage_translates :
    (srmmuSystem emptyCtx).Reachable (MmuOp.Translates emptyCtx) onePage := by
  have hok : MmuOp.Translates emptyCtx emptyMmu
      (.small 0x01000000 0x40000000 0 [0x20008, 0x30008]) :=
    ⟨by decide, fun hne => absurd (by decide) hne, by decide⟩
  exact .step (.init emptyMmu_init) hok onePage_step

theorem srmmu_translates_onePage :
    srmmuGetPaPage onePage.mmu emptyCtx.ctxs emptyCtx.num 0x01000abc = .ok 0x40000000 :=
  (srmmu_translates onePage_translates).1 0x01000abc (by decide)

/-- A table whose buffer starts at a multiple of 256: its marker is the entry of another table. -/
theorem srmmu_marker_strays : ∃ s,
    (srmmuSystem emptyCtx).Reachable (fun _ o => ∃ va pa answers, o = .small va pa 0 answers) s ∧
      srmmuGetPaPage s.mmu emptyCtx.ctxs emptyCtx.num 0 ≠ .ok (s.last 0) := by
  let s₁ := emptyMmu.mapped emptyCtx 0 0x40000000 0 [0x20008, 0x103f8]
  have hstep₁ : (srmmuSystem emptyCtx).step emptyMmu (.small 0 0x40000000 0 [0x20008, 0x103f8]) s₁ := by
    refine MmuState.mapped_step ⟨by decide, by decide, by decide, by decide, by decide⟩ ?_
      (by decide)
    exact ⟨⟨by decide, by decide, by decide, by simp [emptyMmu], by decide⟩,
      ⟨by decide, by decide, by decide, by simp [emptyMmu], by decide⟩, trivial⟩
  have hheap : s₁.mmu.heap = [(0x103f8, 512), (0x20008, 512)] := by decide
  refine ⟨s₁.mapped emptyCtx 0x01000000 0x50000000 0 [0x10000, 0x30008],
    .step (.step (.init emptyMmu_init) ⟨_, _, _, rfl⟩ hstep₁) ⟨_, _, _, rfl⟩
      (MmuState.mapped_step ⟨by decide, by decide, by decide, by decide, by decide⟩ ?_
        (by decide +kernel)), by decide +kernel⟩
  rw [hheap]
  exact ⟨⟨by decide, by decide, by decide, by simp, by decide⟩,
    ⟨by decide, by decide, by decide, by simp, by decide⟩, trivial⟩

end Translation

/-! ## 4. Reference counts -/

section Counts

variable {C : MmuCtx} {s : MmuState}

/-- A table lies in a buffer that was not given back, and the count next to it is the number of
its entries in use. -/
def CountedTbl (s : Srmmu) (tbl tblSize : Nat) : Prop :=
  (∃ b ∈ s.heap, b.1 ≤ tbl ∧ tbl < b.1 + b.2) ∧
    ∃ slot, mmuRefSlot s tbl tblSize = .ok slot ∧ s.mem slot = usedOf (s.entry tbl)

/-- Every table that is linked is counted, one of level 3 has entries, and no buffer is left
without its table. -/
structure CountsExact (s : Srmmu) (lvl1 : Nat) : Prop where
  lvl2 : ∀ va < 2 ^ 32, mmuFindTblLvl2 s lvl1 va ≠ 0 →
    CountedTbl s (mmuFindTblLvl2 s lvl1 va) srmmuTblLvl2Align
  lvl3 : ∀ va < 2 ^ 32, mmuFindTblLvl3 s lvl1 va ≠ 0 →
    CountedTbl s (mmuFindTblLvl3 s lvl1 va) srmmuTblLvl3Align ∧
      0 < usedOf (s.entry (mmuFindTblLvl3 s lvl1 va))
  linked : ∀ b ∈ s.heap, ∃ va < 2 ^ 32, ∃ tbl,
    (tbl = mmuFindTblLvl2 s lvl1 va ∨ tbl = mmuFindTblLvl3 s lvl1 va) ∧
      b.1 ≤ tbl ∧ tbl < b.1 + b.2 ∧ tbl ≠ 0

theorem Rep.countedTbl {s : Srmmu} {lvl1 : Nat} {A : PgTree} (h : Rep s lvl1 A) {k : TblKey}
    {T n : Nat} (hk : A.tbl k = some T) (hcnt : A.cnt k = usedOf (A.ent k)) : CountedTbl s T n := by
  obtain ⟨B, hB, h1, h2, -⟩ := (h.tbl k T hk).buf
  obtain ⟨hslot, hmem⟩ := h.refSlot_eq (n := n) hk
  refine ⟨⟨(B, 512), hB, ?_, ?_⟩, wsub T 8, hslot, ?_⟩
  · exact (Nat.le_add_right B 8).trans h1
  · simp only
    omega
  · rw [hmem, hcnt]
    exact (usedOf_congr (fun i hi => h.entry_eq hk hi)).symm

theorem Good.countsExact {s : Srmmu} {lvl1 : Nat} {A : PgTree} (h : Good True s lvl1 A) :
    CountsExact s lvl1 where
  lvl2 va hva hne := by
    rw [h.findTblLvl2 hva] at hne ⊢
    cases hT : A.tbl (.lvl2 (va / 2 ^ 24)) with
    | none =>
      rw [hT] at hne
      exact absurd rfl hne
    | some T => exact h.rep.countedTbl hT (h.shape.cnt2 _ T hT)
  lvl3 va hva hne := by
    rw [h.findTblLvl3 hva] at hne ⊢
    cases hU : A.tbl (.lvl3 (va / 2 ^ 18)) with
    | none =>
      rw [hU] at hne
      exact absurd rfl hne
    | some U =>
      have hcnt := (h.shape.cnt3 _ U hU).2.2 trivial
      refine ⟨h.rep.countedTbl hU hcnt, ?_⟩
      have hpos := h.counted _ U hU
      rw [hcnt] at hpos
      rwa [Option.getD_some, usedOf_congr (fun i hi => h.rep.entry_eq hU hi)]
  linked b hb := by
    obtain ⟨k, T, hk, h1, h2⟩ := h.owned trivial b hb
    have hsize := (h.rep.heap.bound b hb).2.2
    have hpos := h.rep.bounds hk
    cases k with
    | lvl2 r =>
      have hr := h.shape.range r T hk
      have hdiv : 16777216 * r / 2 ^ 24 = r := by omega
      refine ⟨16777216 * r, by omega, T, Or.inl ?_, by omega, by omega, by omega⟩
      rw [h.findTblLvl2 (by omega), hdiv, hk, Option.getD_some]
    | lvl3 q =>
      obtain ⟨T', hT'⟩ := Option.ne_none_iff_exists'.mp (h.shape.midTbl q T hk).1
      have hr := h.shape.range _ T' hT'
      have hdiv : 262144 * q / 2 ^ 18 = q := by omega
      refine ⟨262144 * q, by omega, T, Or.inr ?_, by omega, by omega, by omega⟩
      rw [h.findTblLvl3 (by omega), hdiv, hk, Option.getD_some]

/-- A count that is exact has room for one more. -/
theorem Good.countRoom {s : Srmmu} {lvl1 va : Nat} {A : PgTree} (h : Good True s lvl1 A)
    (hva : va < 2 ^ 32) : CountRoom s lvl1 va := by
  intro hne slot hslot
  obtain ⟨⟨-, slot', hslot', hmem⟩, -⟩ := h.countsExact.lvl3 va hva hne
  obtain rfl : slot = slot' := Except.ok.inj (hslot.symm.trans hslot')
  have := usedOf_le (s.entry (mmuFindTblLvl3 s lvl1 va))
  omega

theorem MmuRun.exact (h : (srmmuSystem C).Reachable (MmuOp.Counts C) s) :
    ∃ A, Good True s.mmu C.lvl1 A := by
  refine h.invariant (I := fun s => ∃ A, Good True s.mmu C.lvl1 A)
    (fun s hs => ⟨_, Good.init hs⟩) ?_
  rintro s o s' ⟨A, hA⟩ hok hstep
  cases o with
  | small va pa perm answers =>
    have hva : va < 2 ^ 32 := hstep.1.2.1
    obtain ⟨A', -, hA', -⟩ := hA.small hok.1 (hA.countRoom hva) (fun _ => hok.2) hstep
    exact ⟨A', hA'⟩
  | large va pa perm => exact ⟨_, (hA.large (fun _ => hok) hstep).1⟩
  | release va vaEnd =>
    obtain ⟨A', hA', -⟩ := hA.release hstep
    exact ⟨A', hA'⟩

/-- A level 2 table has entries when a section of its region has a table. -/
theorem Good.used_entry_iff {ex : Prop} {s : Srmmu} {lvl1 va : Nat} {A : PgTree}
    (h : Good ex s lvl1 A) (hva : va < 2 ^ 32) (hne : mmuFindTblLvl2 s lvl1 va ≠ 0) :
    0 < usedOf (s.entry (mmuFindTblLvl2 s lvl1 va)) ↔ A.HasLeaves (va / 2 ^ 24) := by
  have hmid := (h.findTblLvl2_iff hva).mp hne
  obtain ⟨T, hT⟩ := Option.ne_none_iff_exists'.mp (PgTree.hasMid_iff.mp hmid)
  rw [← h.used_pos_iff hmid, h.findTblLvl2 hva, hT, Option.getD_some,
    usedOf_congr (fun i hi => h.rep.entry_eq hT hi)]

/-- **The counts are the numbers of entries in use**, and a release drops the tables that it has
emptied, and no other: a page that it does not reach stays where it is. -/
theorem srmmu_counts (h : (srmmuSystem C).Reachable (MmuOp.Counts C) s) :
    CountsExact s.mmu C.lvl1 ∧
    ∀ va vaEnd s', (srmmuSystem C).step s (.release va vaEnd) s' →
      (∀ p < 2 ^ 20, ¬ InRange va vaEnd p → pteAt s'.mmu C.lvl1 p = pteAt s.mmu C.lvl1 p) ∧
      ∀ va' < 2 ^ 32, mmuFindTblLvl2 s'.mmu C.lvl1 va' ≠ 0 →
        0 < usedOf (s.mmu.entry (mmuFindTblLvl2 s.mmu C.lvl1 va')) →
        0 < usedOf (s'.mmu.entry (mmuFindTblLvl2 s'.mmu C.lvl1 va')) := by
  obtain ⟨A, hA⟩ := MmuRun.exact h
  refine ⟨hA.countsExact, fun va vaEnd s' hstep => ?_⟩
  obtain ⟨A', hA', hrel, -⟩ := hA.release hstep
  obtain ⟨⟨⟨c, rfl⟩, hc, ⟨e, rfl⟩, he⟩, -⟩ := hstep
  rw [Nat.mul_div_cancel_left c (by norm_num), Nat.mul_div_cancel_left e (by norm_num)] at hrel
  refine ⟨fun p hp hno => ?_, fun va' hva' hne hused => ?_⟩
  · rw [hA'.pteAt_eq hp, hA.pteAt_eq hp, hrel.page p (fun hv => hno hv.inRange)]
  · rw [hA'.used_entry_iff hva' hne]
    rw [hA'.findTblLvl2_iff hva'] at hne
    have hne' := hrel.mid _ hne
    rw [hA.used_entry_iff hva' ((hA.findTblLvl2_iff hva').mpr hne')] at hused
    exact hrel.kept _ hne hused

theorem onePage_counts : (srmmuSystem emptyCtx).Reachable (MmuOp.Counts emptyCtx) onePage := by
  have hok : MmuOp.Counts emptyCtx emptyMmu (.small 0x01000000 0x40000000 0 [0x20008, 0x30008]) :=
    ⟨by decide, by decide⟩
  exact .step (.init emptyMmu_init) hok onePage_step

theorem srmmu_counts_onePage : CountsExact onePage.mmu 0x8000 := (srmmu_counts onePage_counts).1

/-- A page that is mapped twice is counted twice. -/
theorem srmmu_counts_twice : ∃ s,
    (srmmuSystem emptyCtx).Reachable (fun _ o => ∃ va pa answers, o = .small va pa 0 answers) s ∧
      ¬ CountsExact s.mmu emptyCtx.lvl1 := by
  refine ⟨onePage.mapped emptyCtx 0x01000000 0x50000000 0 [],
    .step (.step (.init emptyMmu_init) ⟨_, _, _, rfl⟩ onePage_step) ⟨_, _, _, rfl⟩
      (MmuState.mapped_step ⟨by decide, by decide, by decide, by decide, by decide⟩ trivial
        (by decide +kernel)), fun h => ?_⟩
  obtain ⟨⟨-, slot, hslot, hmem⟩, -⟩ := h.lvl3 0x01000000 (by decide) (by decide +kernel)
  have hslot' : mmuRefSlot (onePage.mapped emptyCtx 0x01000000 0x50000000 0 []).mmu
      (mmuFindTblLvl3 (onePage.mapped emptyCtx 0x01000000 0x50000000 0 []).mmu emptyCtx.lvl1
        0x01000000) srmmuTblLvl3Align = .ok 0x300f8 := by decide +kernel
  obtain rfl : slot = 0x300f8 := Except.ok.inj (hslot.symm.trans hslot')
  exact absurd hmem (by decide +kernel)

end Counts

end FlightOs
