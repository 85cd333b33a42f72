/-
# Mapping ranges

The loops of `srmmu_do_small_mapping_range` and `srmmu_do_large_mapping_range` map one page after the
other and return at the first one that fails.  What that means for the machine is said with the walk of
the MMU itself (`mmuTranslate`), which takes the entry that it ends at and puts its upper bits in the
place of those of the address.

* `srmmu_small_range`: a prefix of the range is translated as asked, the whole range if and only if the
  call succeeds, and every other address is translated as before.
* `srmmu_large_range`: a range of large pages is always mapped, and takes the place of what was there.
* `mm_init_leon_identity`: the first mapping at boot makes every address from `HIGHMEM_START` on its own
  translation.
-/
import FlightOs.Mmu.Break
import FlightOs.Srmmu.Contract

namespace FlightOs

/-! ## 1. The walk of the MMU -/

/-- The physical address that an access goes to, or `none` for a fault. -/
def mmuTranslate (s : Srmmu) (lvl1 va : Nat) : Option Nat :=
  let pte := s.entry lvl1 (srmmuLvl1GetTblOffset va)
  if isPtEntry pte then some (srmmuPteToAddr pte / 2 ^ 24 * 2 ^ 24 + va % 2 ^ 24)
  else if pte = 0 then none
  else
    let lvl2 := srmmuPtdToAddr pte
    let pte := s.entry lvl2 (srmmuLvl2GetTblOffset va)
    if isPtEntry pte then some (srmmuPteToAddr pte / 2 ^ 18 * 2 ^ 18 + va % 2 ^ 18)
    else if pte = 0 then none
    else
      let lvl3 := srmmuPtdToAddr pte
      let pte := s.entry lvl3 (srmmuLvl3GetTblOffset va)
      if isPtEntry pte then some (srmmuPteToAddr pte + va % 2 ^ 12) else none

/-- What a tree translates an address to. -/
def PgTree.translate (A : PgTree) (va : Nat) : Option Nat :=
  if A.large (va / 2 ^ 24) ≠ 0 then
    some (srmmuPteToAddr (A.large (va / 2 ^ 24)) / 2 ^ 24 * 2 ^ 24 + va % 2 ^ 24)
  else if A.page (va / 2 ^ 12) ≠ 0 then some (srmmuPteToAddr (A.page (va / 2 ^ 12)) + va % 2 ^ 12)
  else none

section Walk

variable {ex : Prop} {s : Srmmu} {lvl1 va : Nat} {A : PgTree}

/-- A region with a table of level 2 has no large page, and its walk goes on. -/
theorem Good.translate_mid (h : Good ex s lvl1 A) (hva : va < 2 ^ 32) {T : Nat}
    (hT : A.tbl (.lvl2 (va / 2 ^ 24)) = some T) : mmuTranslate s lvl1 va = A.translate va := by
  have hr : va / 2 ^ 24 < 256 := by omega
  have hq : va / 2 ^ 18 / 64 = va / 2 ^ 24 := by omega
  have hp : va / 2 ^ 12 / 64 = va / 2 ^ 18 := by omega
  have hoff : srmmuLvl1GetTblOffset va = va / 2 ^ 24 := Nat.mod_eq_of_lt hr
  obtain ⟨htop, hne, haddr⟩ := h.shape.top_ne hT (h.rep.tbl _ T hT).aligned (h.rep.lt hT)
  have hlarge : A.large (va / 2 ^ 24) = 0 := by
    rw [PgTree.large, htop]
    rfl
  have hent : s.entry T (srmmuLvl2GetTblOffset va) =
      A.ent (.lvl2 (va / 2 ^ 24)) (va / 2 ^ 18 % 64) := h.rep.entry_eq hT (Nat.mod_lt _ (by norm_num))
  rw [PgTree.translate, hlarge, if_neg (not_not.mpr rfl), mmuTranslate, hoff, h.rep.entry_top hr]
  simp only [htop, hne, haddr, hent, if_false, Bool.false_eq_true]
  cases hU : A.tbl (.lvl3 (va / 2 ^ 18)) with
  | none =>
    have hmid := h.shape.midNone (va / 2 ^ 18) (by rw [hq, hT]; simp) hU
    rw [hq] at hmid
    rw [hmid, PgTree.page_of_none (hp ▸ hU)]
    rfl
  | some U =>
    have hmid := (h.shape.midTbl _ U hU).2
    rw [hq] at hmid
    obtain ⟨h1, h2, h3⟩ := srmmuPtd_spec (h.rep.tbl _ U hU).aligned (h.rep.lt hU)
    have hleaf : s.entry U (srmmuLvl3GetTblOffset va) = A.page (va / 2 ^ 12) := by
      rw [PgTree.page_of_some (hp ▸ hU), hp]
      exact h.rep.entry_eq hU (Nat.mod_lt _ (by norm_num))
    have hkind : A.page (va / 2 ^ 12) = 0 ∨ isPtEntry (A.page (va / 2 ^ 12)) = true := by
      rw [PgTree.page_of_some (hp ▸ hU), hp]
      exact h.shape.leaf _ U hU _ (Nat.mod_lt _ (by norm_num))
    simp only [hmid, h1, h2, h3, hleaf, if_false, Bool.false_eq_true]
    rcases hkind with h0 | hpt
    · rw [h0]
      rfl
    · rw [if_pos hpt, if_pos (ne_zero_of_isPtEntry hpt)]

/-- **The walk of the MMU** ends at the large page of the region, or at the small page. -/
theorem Good.translate (h : Good ex s lvl1 A) (hva : va < 2 ^ 32) :
    mmuTranslate s lvl1 va = A.translate va := by
  cases hT : A.tbl (.lvl2 (va / 2 ^ 24)) with
  | some T => exact h.translate_mid hva hT
  | none =>
    have hr : va / 2 ^ 24 < 256 := by omega
    have hoff : srmmuLvl1GetTblOffset va = va / 2 ^ 24 := Nat.mod_eq_of_lt hr
    rw [mmuTranslate, hoff, h.rep.entry_top hr, PgTree.translate, PgTree.large]
    rcases h.shape.topNone _ hr hT with h0 | hpt
    · have hleaf : A.tbl (.lvl3 (va / 2 ^ 18)) = none := by
        cases hU : A.tbl (.lvl3 (va / 2 ^ 18)) with
        | none => rfl
        | some U =>
          have hq : va / 2 ^ 18 / 64 = va / 2 ^ 24 := by omega
          exact absurd (hq ▸ hT) (h.shape.midTbl _ U hU).1
      have hp : va / 2 ^ 12 / 64 = va / 2 ^ 18 := by omega
      rw [h0, PgTree.page_of_none (hp ▸ hleaf)]
      rfl
    · rw [if_pos hpt, if_pos hpt, if_pos (ne_zero_of_isPtEntry hpt)]

end Walk

/-! ## 2. The loops -/

/-- The loop of `srmmu_do_small_mapping_range`, `n` pages from the page `i` on. -/
def smallMappingLoop (c : MmuCtxs) (ctxNum va pa perm : Nat) : Nat → Nat → Srmmu →
    Except Halt (Srmmu × Int)
  | 0, _, s => .ok (s, 0)
  | n + 1, i, s =>
    match srmmuDoSmallMapping s c ctxNum (wadd va (i * srmmuSmallPageSize))
        (wadd pa (i * srmmuSmallPageSize)) perm with
    | .error e => .error e
    | .ok (s, ret) =>
      if ret ≠ 0 then .ok (s, ret) else smallMappingLoop c ctxNum va pa perm n (i + 1) s

/-- Zero, or a negated error number. -/
def srmmuDoSmallMappingRange (s : Srmmu) (c : MmuCtxs) (ctxNum va pa numPages perm : Nat) :
    Except Halt (Srmmu × Int) :=
  if c.num < ctxNum then .ok (s, -(EINVAL : Int))
  else smallMappingLoop c ctxNum va pa perm numPages 0 s

/-- The loop of `srmmu_do_large_mapping_range`. -/
def largeMappingLoop (c : MmuCtxs) (ctxNum va pa perm : Nat) : Nat → Nat → Srmmu → Srmmu × Int
  | 0, _, s => (s, 0)
  | n + 1, i, s =>
    match srmmuDoLargeMapping s c ctxNum (wadd va (i * srmmuLargePageSize))
        (wadd pa (i * srmmuLargePageSize)) perm with
    | (s, ret) => if ret ≠ 0 then (s, ret) else largeMappingLoop c ctxNum va pa perm n (i + 1) s

/-- Zero, or a negated error number. -/
def srmmuDoLargeMappingRange (s : Srmmu) (c : MmuCtxs) (ctxNum va pa numPages perm : Nat) :
    Srmmu × Int :=
  if c.num < ctxNum then (s, -(EINVAL : Int))
  else largeMappingLoop c ctxNum va pa perm numPages 0 s

/-- `SRMMU_CACHEABLE | SRMMU_ACC_S_RWX_2` -/
def srmmuCacheableRwx : Nat := 0x80 ||| 7 <<< 2

/-- The mapping of `mm_init_leon`. -/
def mmInitLeonMap (s : Srmmu) (c : MmuCtxs) (ctxNum : Nat) : Srmmu × Int :=
  srmmuDoLargeMappingRange s c ctxNum highmemStart highmemStart
    ((0xFFFFFFFF - highmemStart) / srmmuLargePageSize + 1) srmmuCacheableRwx

/-! ## 3. The answers that are left -/

/-- The allocator stays valid. -/
def AnswersLeft (lvl1 : Nat) (s : Srmmu) : Prop :=
  AnswersOk lvl1 s.heap s.answers ∧ Unaligned s.answers

section Answers

variable {s s' : Srmmu} {lvl1 va pa perm : Nat}

theorem AnswersLeft.congr (h : AnswersLeft lvl1 s) (hheap : s'.heap = s.heap)
    (hans : s'.answers = s.answers) : AnswersLeft lvl1 s' := by
  rw [AnswersLeft, hheap, hans]
  exact h

theorem AnswersLeft.alloc (h : AnswersLeft lvl1 s) : AnswersLeft lvl1 (s.alloc 512).1 := by
  obtain ⟨hok, hun⟩ := h
  cases hans : s.answers with
  | nil =>
    have hsame : (s.alloc 512).1 = s := by
      rw [Srmmu.alloc, hans]
    rw [hsame]
    exact ⟨hok, hun⟩
  | cons a as =>
    rw [hans, AnswersOk] at hok
    rw [hans] at hun
    have hrest : Unaligned as := fun b hb => hun b (List.mem_cons_of_mem _ hb)
    have hnext : (s.alloc 512).1 =
        { s with answers := as, heap := if a = 0 then s.heap else (a, 512) :: s.heap } := by
      rw [Srmmu.alloc, hans]
    rw [hnext]
    by_cases ha : a = 0
    · rw [if_pos ha] at hok
      refine ⟨?_, hrest⟩
      dsimp only
      rw [if_pos ha]
      exact hok
    · rw [if_neg ha] at hok
      refine ⟨?_, hrest⟩
      dsimp only
      rw [if_neg ha]
      exact hok.2

theorem AnswersLeft.allocTbl (h : AnswersLeft lvl1 s) : AnswersLeft lvl1 (mmuAllocTbl s 256).1 := by
  have halloc := h.alloc
  unfold mmuAllocTbl
  cases hs : s.alloc (2 * 256) with
  | mk t ptde =>
    have ht : AnswersLeft lvl1 t := by
      rw [show t = (s.alloc 512).1 from (congrArg Prod.fst hs).symm]
      exact halloc
    dsimp only
    split
    · exact ht
    · split
      · exact ht.congr rfl rfl
      · exact ht.congr rfl rfl

theorem mmuSetTblInvalid_frame (s : Srmmu) (tbl n : Nat) :
    (mmuSetTblInvalid s tbl n).heap = s.heap ∧ (mmuSetTblInvalid s tbl n).answers = s.answers := by
  induction n with
  | zero => exact ⟨rfl, rfl⟩
  | succ n ih => exact ih

theorem mmuIncRefCnt_frame {tbl tblSize c : Nat} (h : mmuIncRefCnt s tbl tblSize = .ok (s', c)) :
    s'.heap = s.heap ∧ s'.answers = s.answers := by
  unfold mmuIncRefCnt at h
  split at h
  · cases h
  · obtain ⟨rfl, -⟩ := Prod.mk.inj (Except.ok.inj h)
    exact ⟨rfl, rfl⟩

theorem AnswersLeft.makeLvl3Tbl (h : AnswersLeft lvl1 s) {lvl2 : Nat} {ret : Int}
    (hmake : mmuMakeLvl3Tbl s lvl2 va = .ok (s', ret)) : AnswersLeft lvl1 s' := by
  have halloc := h.allocTbl
  unfold mmuMakeLvl3Tbl at hmake
  rw [show srmmuTblLvl3Align = 256 from rfl] at hmake
  cases hs : mmuAllocTbl s 256 with
  | mk t lvl3 =>
    rw [hs] at hmake halloc
    dsimp only at hmake halloc
    split at hmake
    · obtain ⟨rfl, -⟩ := Prod.mk.inj (Except.ok.inj hmake)
      exact halloc
    · obtain ⟨hheap, hans⟩ := mmuSetTblInvalid_frame t lvl3 srmmuSizeTblLvl3
      generalize mmuSetTblInvalid t lvl3 srmmuSizeTblLvl3 = u at hmake hheap hans
      split at hmake
      · cases hmake
      · rename_i s₁ c hinc
        obtain ⟨rfl, -⟩ := Prod.mk.inj (Except.ok.inj hmake)
        obtain ⟨hheap', hans'⟩ := mmuIncRefCnt_frame hinc
        exact halloc.congr (hheap'.trans hheap) (hans'.trans hans)

theorem AnswersLeft.needLvl2Tbl (h : AnswersLeft lvl1 s) (va : Nat) :
    AnswersLeft lvl1 (mmuNeedLvl2Tbl s lvl1 va).1 := by
  have halloc := h.allocTbl
  unfold mmuNeedLvl2Tbl
  rw [show srmmuTblLvl2Align = 256 from rfl]
  cases hs : mmuAllocTbl s 256 with
  | mk t ptde =>
    rw [hs] at halloc
    dsimp only at halloc ⊢
    split
    · exact h
    · split
      · exact h
      · split
        · exact halloc
        · obtain ⟨hheap, hans⟩ := mmuSetTblInvalid_frame t ptde srmmuSizeTblLvl2
          generalize mmuSetTblInvalid t ptde srmmuSizeTblLvl2 = u at hheap hans
          exact halloc.congr hheap hans

theorem AnswersLeft.needLvl3Tbl (h : AnswersLeft lvl1 s) {ret : Int}
    (hneed : mmuNeedLvl3Tbl s lvl1 va = .ok (s', ret)) : AnswersLeft lvl1 s' := by
  have hmid := h.needLvl2Tbl va
  unfold mmuNeedLvl3Tbl at hneed
  dsimp only at hneed
  split at hneed
  · obtain ⟨rfl, -⟩ := Prod.mk.inj (Except.ok.inj hneed)
    exact h
  · split at hneed
    · exact h.makeLvl3Tbl hneed
    · cases hs : mmuNeedLvl2Tbl s lvl1 va with
      | mk t ret' =>
        rw [hs] at hneed hmid
        dsimp only at hneed hmid
        split at hneed
        · obtain ⟨rfl, -⟩ := Prod.mk.inj (Except.ok.inj hneed)
          exact hmid
        · exact hmid.makeLvl3Tbl hneed

theorem AnswersLeft.mapSmall (h : AnswersLeft lvl1 s) {ret : Int}
    (hmap : mapSmall s lvl1 va pa perm = .ok (s', ret)) : AnswersLeft lvl1 s' := by
  unfold FlightOs.mapSmall at hmap
  split at hmap
  · cases hmap
  · rename_i t ret' hneed
    have ht := h.needLvl3Tbl hneed
    dsimp only at hmap
    split at hmap
    · obtain ⟨rfl, -⟩ := Prod.mk.inj (Except.ok.inj hmap)
      exact ht
    · split at hmap
      · cases hmap
      · rename_i s₁ c hinc
        obtain ⟨rfl, -⟩ := Prod.mk.inj (Except.ok.inj hmap)
        obtain ⟨hheap, hans⟩ := mmuIncRefCnt_frame hinc
        exact ht.congr hheap hans

end Answers

/-! ## 4. Ranges of small pages -/

section Small

variable {ex : Prop} {C : MmuCtx} {A : PgTree} {va pa perm : Nat}

/-- A region that a small page is mapped in has no large page. -/
theorem Shape.large_of_page (h : Shape ex A) {s : Srmmu} {lvl1 : Nat} (hrep : Rep s lvl1 A) {p : Nat}
    (hp : A.page p ≠ 0) : A.large (p / 4096) = 0 := by
  have hq : p / 64 / 64 = p / 4096 := by omega
  cases hU : A.tbl (.lvl3 (p / 64)) with
  | none => exact absurd (PgTree.page_of_none hU) hp
  | some U =>
    obtain ⟨T, hT⟩ := Option.ne_none_iff_exists'.mp (h.midTbl _ U hU).1
    rw [hq] at hT
    have htop := (h.top_ne hT (hrep.tbl _ T hT).aligned (hrep.lt hT)).1
    rw [PgTree.large, htop]
    rfl

/-- **The loop over small pages**: those before the first one that fails are mapped. -/
theorem Good.smallMappingLoop (pa perm : Nat) (hva : 4096 ∣ va) :
    ∀ (n i : Nat) {s : Srmmu} {A : PgTree}, Good True s C.lvl1 A → AnswersLeft C.lvl1 s →
      va + 4096 * (i + n) ≤ 2 ^ 32 → pa + 4096 * (i + n) ≤ 2 ^ 32 →
      (∀ k, i ≤ k → k < i + n → A.page (va / 4096 + k) = 0) →
      ∃ s' ret m A', smallMappingLoop C.ctxs C.num va pa perm n i s = .ok (s', ret) ∧
        Good True s' C.lvl1 A' ∧ m ≤ n ∧ (ret = 0 ↔ m = n) ∧ (∀ r, A'.large r = A.large r) ∧
        ∀ p, A'.page p = if va / 4096 + i ≤ p ∧ p < va / 4096 + i + m then
          srmmuPte (pa + 4096 * (p - va / 4096)) perm else A.page p
  | 0, i, s, A, hs, _, _, _, _ =>
    ⟨s, 0, 0, A, rfl, hs, Nat.le_refl 0, by simp, fun _ => rfl, fun p => by rw [if_neg (by omega)]⟩
  | n + 1, i, s, A, hs, hans, hend, hpend, hfree => by
    have hva' : wadd va (i * srmmuSmallPageSize) = va + 4096 * i := by
      rw [srmmuSmallPageSize, wadd_of_lt (by omega), Nat.mul_comm]
    have hpa' : wadd pa (i * srmmuSmallPageSize) = pa + 4096 * i := by
      rw [srmmuSmallPageSize, wadd_of_lt (by omega), Nat.mul_comm]
    have hpage : (va + 4096 * i) / 2 ^ 12 = va / 4096 + i := by omega
    have hroom : ∀ U, A.tbl (.lvl3 ((va + 4096 * i) / 2 ^ 18)) = some U →
        A.cnt (.lvl3 ((va + 4096 * i) / 2 ^ 18)) + 1 < 2 ^ 32 := by
      intro U hU
      rw [(hs.shape.cnt3 _ U hU).2.2 trivial]
      have := usedOf_le (A.ent (.lvl3 ((va + 4096 * i) / 2 ^ 18)))
      omega
    have hlt : va + 4096 * i < 2 ^ 32 := by omega
    obtain ⟨s₁, ret, A₁, hmap, hgood, -, hlarge, hpages⟩ :=
      hs.mapSmall (pa + 4096 * i) perm hans.1 hans.2 hlt hroom
        fun _ => hpage ▸ hfree i (Nat.le_refl i) (by omega)
    rw [hpage] at hpages
    rw [FlightOs.smallMappingLoop, hva', hpa', C.smallMapping, hmap]
    by_cases hret : ret = 0
    · have hfree' : ∀ k, i + 1 ≤ k → k < i + 1 + n → A₁.page (va / 4096 + k) = 0 := by
        intro k hk hkn
        rw [hpages, if_neg (by omega)]
        exact hfree k (by omega) (by omega)
      obtain ⟨s', ret', m, A', hloop, hgood', hm, hall, hlarge', hpages'⟩ :=
        Good.smallMappingLoop pa perm hva n (i + 1) hgood (hans.mapSmall hmap) (by omega) (by omega) hfree'
      refine ⟨s', ret', m + 1, A', ?_, hgood', by omega, by omega, fun r => ?_, fun p => ?_⟩
      · dsimp only
        rw [if_neg (not_not.mpr hret), hloop]
      · rw [hlarge', hlarge]
      · rw [hpages', hpages]
        by_cases hp : p = va / 4096 + i
        · rw [if_neg (by omega), if_pos ⟨hret, hp⟩, if_pos (by omega), hp, Nat.add_sub_cancel_left]
        · have hold : ¬ (ret = 0 ∧ p = va / 4096 + i) := fun h => hp h.2
          rw [if_neg hold]
          exact if_congr (by omega) rfl rfl
    · refine ⟨s₁, ret, 0, A₁, ?_, hgood, Nat.zero_le _, by omega, hlarge, fun p => ?_⟩
      · dsimp only
        rw [if_pos hret]
      · rw [hpages, if_neg (fun h => hret h.1), if_neg (by omega)]

/-- **A range of small pages.**  The pages up to the first one that fails are mapped, the call succeeds
if and only if these are all, and every other address is translated as before. -/
theorem srmmu_small_range {s : MmuState} {n : Nat} {answers : List Nat}
    (h : (srmmuSystem C).Reachable (MmuOp.Counts C) s) (hva : 4096 ∣ va) (hpa : 4096 ∣ pa)
    (hend : va + 4096 * n ≤ 2 ^ 32) (hpend : pa + 4096 * n ≤ 2 ^ 32) (hperm : perm < 256)
    (hans : AnswersOk C.lvl1 s.mmu.heap answers) (hun : Unaligned answers)
    (hfree : ∀ k < n, pteAt s.mmu C.lvl1 (va / 4096 + k) = 0) :
    ∃ s' ret m, srmmuDoSmallMappingRange { s.mmu with answers := answers } C.ctxs C.num va pa n perm =
        .ok (s', ret) ∧ m ≤ n ∧ (ret = 0 ↔ m = n) ∧
      ∀ x < 2 ^ 32, mmuTranslate s' C.lvl1 x =
        if va ≤ x ∧ x < va + 4096 * m then some (pa + (x - va)) else mmuTranslate s.mmu C.lvl1 x := by
  obtain ⟨A, hA⟩ := MmuRun.exact h
  have hA' : Good True { s.mmu with answers := answers } C.lvl1 A :=
    ⟨hA.rep.congr rfl rfl, hA.shape, hA.counted, fun hx => (hA.owned hx).congr rfl (fun _ _ hk => hk)⟩
  have hpages : ∀ k, 0 ≤ k → k < 0 + n → A.page (va / 4096 + k) = 0 := by
    intro k _ hk
    rw [← hA.pteAt_eq (by omega)]
    exact hfree k (by omega)
  obtain ⟨s', ret, m, B, hloop, hB, hm, hall, hlarge, hpage⟩ :=
    Good.smallMappingLoop pa perm hva n 0 hA' ⟨hans, hun⟩ (by omega) (by omega) hpages
  refine ⟨s', ret, m, ?_, hm, hall, fun x hx => ?_⟩
  · rw [srmmuDoSmallMappingRange, if_neg C.num_le, hloop]
  · rw [hB.translate hx, hA.translate hx, PgTree.translate, PgTree.translate, hlarge]
    obtain ⟨c, rfl⟩ := hva
    obtain ⟨d, rfl⟩ := hpa
    rw [Nat.mul_div_cancel_left c (by norm_num)] at hpage
    by_cases hin : 4096 * c ≤ x ∧ x < 4096 * c + 4096 * m
    · have hnew : B.page (x / 2 ^ 12) = srmmuPte (4096 * d + 4096 * (x / 2 ^ 12 - c)) perm := by
        rw [hpage, if_pos (by omega)]
      have hne : B.page (x / 2 ^ 12) ≠ 0 := by
        rw [hnew]
        exact ne_zero_of_isPtEntry (isPtEntry_srmmuPte _ _)
      have hregion := hB.shape.large_of_page hB.rep hne
      rw [hlarge, show x / 2 ^ 12 / 4096 = x / 2 ^ 24 by omega] at hregion
      rw [hregion, if_neg (not_not.mpr rfl), if_pos hne, if_pos hin, hnew,
        srmmuPteToAddr_srmmuPte (by omega) (by omega) hperm]
      exact congrArg some (by omega)
    · have hold : B.page (x / 2 ^ 12) = A.page (x / 2 ^ 12) := by
        rw [hpage, if_neg (by omega)]
      rw [if_neg hin, hold]

/-- Two pages of an empty region: the allocator is asked for the two tables with the first one. -/
theorem srmmu_small_range_two :
    ∃ s' ret m, srmmuDoSmallMappingRange { emptyMmu.mmu with answers := [0x20008, 0x30008] }
        emptyCtx.ctxs emptyCtx.num 0x01000000 0x40000000 2 0 = .ok (s', ret) ∧ m ≤ 2 ∧ (ret = 0 ↔ m = 2) ∧
      ∀ x < 2 ^ 32, mmuTranslate s' emptyCtx.lvl1 x =
        if 0x01000000 ≤ x ∧ x < 0x01000000 + 4096 * m then some (0x40000000 + (x - 0x01000000))
        else mmuTranslate emptyMmu.mmu emptyCtx.lvl1 x := by
  refine srmmu_small_range (.init emptyMmu_init) (by decide) (by decide) (by decide) (by decide) (by decide)
    ?_ (by decide) (by decide)
  exact ⟨⟨by decide, by decide, by decide, by simp [emptyMmu], by decide⟩,
    ⟨by decide, by decide, by decide, by simp [emptyMmu], by decide⟩, trivial⟩

end Small

/-! ## 5. Ranges of large pages -/

section Large

variable {ex : Prop} {C : MmuCtx} {va pa perm : Nat}

/-- **The loop over large pages** does not fail. -/
theorem Good.largeMappingLoop (pa perm : Nat) (hva : 16777216 ∣ va) :
    ∀ (n i : Nat) {s : Srmmu} {A : PgTree}, Good False s C.lvl1 A →
      va + 16777216 * (i + n) ≤ 2 ^ 32 → pa + 16777216 * (i + n) ≤ 2 ^ 32 →
      ∃ s' A', largeMappingLoop C.ctxs C.num va pa perm n i s = (s', 0) ∧ Good False s' C.lvl1 A' ∧
        (∀ r, A'.large r = if va / 16777216 + i ≤ r ∧ r < va / 16777216 + i + n then
          srmmuPte (pa + 16777216 * (r - va / 16777216)) perm else A.large r) ∧
        ∀ p, A'.page p = if va / 16777216 + i ≤ p / 4096 ∧ p / 4096 < va / 16777216 + i + n then 0
          else A.page p
  | 0, i, s, A, hs, _, _ =>
    ⟨s, A, rfl, hs, fun r => by rw [if_neg (by omega)], fun p => by rw [if_neg (by omega)]⟩
  | n + 1, i, s, A, hs, hend, hpend => by
    have hva' : wadd va (i * srmmuLargePageSize) = va + 16777216 * i := by
      rw [srmmuLargePageSize, wadd_of_lt (by omega), Nat.mul_comm]
    have hpa' : wadd pa (i * srmmuLargePageSize) = pa + 16777216 * i := by
      rw [srmmuLargePageSize, wadd_of_lt (by omega), Nat.mul_comm]
    have hr : (va + 16777216 * i) / 2 ^ 24 = va / 16777216 + i := by omega
    have hmap : Good False
        (FlightOs.mapLarge s C.lvl1 (va + 16777216 * i) (pa + 16777216 * i) perm) C.lvl1
        (A.putLarge ((va + 16777216 * i) / 2 ^ 24) (srmmuPte (pa + 16777216 * i) perm)) :=
      hs.mapLarge (by omega) False.elim
    obtain ⟨s', A', hloop, hgood, hlarge, hpage⟩ :=
      Good.largeMappingLoop pa perm hva n (i + 1) hmap (by omega) (by omega)
    rw [hr] at hlarge hpage
    refine ⟨s', A', ?_, hgood, fun r => ?_, fun p => ?_⟩
    · rw [FlightOs.largeMappingLoop, hva', hpa', C.largeMapping]
      dsimp only
      rw [if_neg (not_not.mpr rfl), hloop]
    · rw [hlarge, PgTree.large_putLarge (isPtEntry_srmmuPte _ _)]
      by_cases heq : r = va / 16777216 + i
      · rw [if_neg (by omega), if_pos heq, if_pos (by omega), heq, Nat.add_sub_cancel_left]
      · rw [if_neg heq]
        exact if_congr (by omega) rfl rfl
    · rw [hpage, PgTree.page_putLarge]
      by_cases heq : p / 4096 = va / 16777216 + i
      · rw [if_neg (by omega), if_pos heq, if_pos (by omega)]
      · rw [if_neg heq]
        exact if_congr (by omega) rfl rfl

/-- What a range of large pages does to the walk. -/
theorem Good.largeRange {s : Srmmu} {A : PgTree} {n : Nat} (hA : Good False s C.lvl1 A)
    (hva : 16777216 ∣ va) (hpa : 16777216 ∣ pa) (hend : va + 16777216 * n ≤ 2 ^ 32)
    (hpend : pa + 16777216 * n ≤ 2 ^ 32) (hperm : perm < 256) :
    ∃ s', srmmuDoLargeMappingRange s C.ctxs C.num va pa n perm = (s', 0) ∧
      ∀ x < 2 ^ 32, mmuTranslate s' C.lvl1 x =
        if va ≤ x ∧ x < va + 16777216 * n then some (pa + (x - va)) else mmuTranslate s C.lvl1 x := by
  obtain ⟨s', B, hloop, hB, hlarge, hpage⟩ :=
    Good.largeMappingLoop pa perm hva n 0 hA (by omega) (by omega)
  refine ⟨s', ?_, fun x hx => ?_⟩
  · rw [srmmuDoLargeMappingRange, if_neg C.num_le, hloop]
  · rw [hB.translate hx, hA.translate hx, PgTree.translate, PgTree.translate]
    have hpage' := hpage (x / 2 ^ 12)
    rw [show x / 2 ^ 12 / 4096 = x / 2 ^ 24 by omega] at hpage'
    obtain ⟨c, rfl⟩ := hva
    obtain ⟨d, rfl⟩ := hpa
    rw [Nat.mul_div_cancel_left c (by norm_num)] at hlarge hpage'
    by_cases hin : 16777216 * c ≤ x ∧ x < 16777216 * c + 16777216 * n
    · have hnew : B.large (x / 2 ^ 24) =
          srmmuPte (16777216 * d + 16777216 * (x / 2 ^ 24 - c)) perm := by
        rw [hlarge, if_pos (by omega)]
      rw [if_pos hin, hnew, if_pos (ne_zero_of_isPtEntry (isPtEntry_srmmuPte _ _)),
        srmmuPteToAddr_srmmuPte (by omega) (by omega) hperm]
      exact congrArg some (by omega)
    · have hold : B.large (x / 2 ^ 24) = A.large (x / 2 ^ 24) := by
        rw [hlarge, if_neg (by omega)]
      have hold' : B.page (x / 2 ^ 12) = A.page (x / 2 ^ 12) := by
        rw [hpage', if_neg (by omega)]
      rw [if_neg hin, hold, hold']

/-- **A range of large pages** is mapped whole, in the place of all that was there. -/
theorem srmmu_large_range {s : MmuState} {n : Nat} (h : (srmmuSystem C).Reachable (MmuOp.Fits C) s)
    (hva : 16777216 ∣ va) (hpa : 16777216 ∣ pa) (hend : va + 16777216 * n ≤ 2 ^ 32)
    (hpend : pa + 16777216 * n ≤ 2 ^ 32) (hperm : perm < 256) :
    ∃ s', srmmuDoLargeMappingRange s.mmu C.ctxs C.num va pa n perm = (s', 0) ∧
      ∀ x < 2 ^ 32, mmuTranslate s' C.lvl1 x =
        if va ≤ x ∧ x < va + 16777216 * n then some (pa + (x - va)) else mmuTranslate s.mmu C.lvl1 x := by
  obtain ⟨A, hA⟩ := MmuRun.good h
  exact hA.largeRange hva hpa hend hpend hperm

theorem srmmu_large_range_four :
    ∃ s', srmmuDoLargeMappingRange emptyMmu.mmu emptyCtx.ctxs emptyCtx.num 0x40000000 0x60000000 4 0 =
        (s', 0) ∧
      ∀ x < 2 ^ 32, mmuTranslate s' emptyCtx.lvl1 x =
        if 0x40000000 ≤ x ∧ x < 0x40000000 + 16777216 * 4 then some (0x60000000 + (x - 0x40000000))
        else mmuTranslate emptyMmu.mmu emptyCtx.lvl1 x :=
  srmmu_large_range (.init emptyMmu_init) (by decide) (by decide) (by decide) (by decide) (by decide)

/-- **The mapping at boot**: from `HIGHMEM_START` on addresses are their own translations, and below
there is nothing. -/
theorem mm_init_leon_identity {s : MmuState} (h : (srmmuSystem C).init s) :
    ∃ s', mmInitLeonMap s.mmu C.ctxs C.num = (s', 0) ∧
      ∀ x < 2 ^ 32, mmuTranslate s' C.lvl1 x = if highmemStart ≤ x then some x else none := by
  have hA : Good False s.mmu C.lvl1 _ := Good.init h
  have hal : 16777216 ∣ highmemStart := by decide
  have hperm : srmmuCacheableRwx < 256 := by decide
  have hall : highmemStart + 16777216 * ((0xFFFFFFFF - highmemStart) / srmmuLargePageSize + 1) =
      2 ^ 32 := by decide
  obtain ⟨s', hmap, htranslate⟩ := hA.largeRange hal hal (Nat.le_of_eq hall) (Nat.le_of_eq hall) hperm
  refine ⟨s', hmap, fun x hx => ?_⟩
  rw [htranslate x hx, hall]
  by_cases hle : highmemStart ≤ x
  · rw [if_pos ⟨hle, hx⟩, if_pos hle, Nat.add_sub_cancel' hle]
  · rw [if_neg (fun h => hle h.1), if_neg hle, hA.translate hx]
    simp [PgTree.translate, PgTree.large, PgTree.page, isPtEntry]

theorem mm_init_leon_identity_empty :
    ∃ s', mmInitLeonMap emptyMmu.mmu emptyCtx.ctxs emptyCtx.num = (s', 0) ∧
      ∀ x < 2 ^ 32, mmuTranslate s' emptyCtx.lvl1 x = if highmemStart ≤ x then some x else none :=
  mm_init_leon_identity emptyMmu_init

end Large

end FlightOs
