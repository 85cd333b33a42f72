/-
# Mapping pages

What the mapping calls do to a well-formed tree.

* `Good.mapSmall`: `srmmu_do_small_mapping` always returns.  When it succeeds, one page has a new
  entry and nothing else has changed; when it fails, every page is as before.
* `Good.mapLarge`: `srmmu_do_large_mapping` puts a large page in the place of all that the region
  held.

A failed small mapping can leave an empty table of level 2 behind.
-/
import FlightOs.Srmmu.Shape

namespace FlightOs

/-! ## 1. Pages of changed trees -/

namespace PgTree

variable {A : PgTree} {r q p v T U : Nat}

theorem page_congr {A' : PgTree} {p : Nat} (htbl : A'.tbl (.lvl3 (p / 64)) = A.tbl (.lvl3 (p / 64)))
    (hent : A'.ent (.lvl3 (p / 64)) (p % 64) = A.ent (.lvl3 (p / 64)) (p % 64)) :
    A'.page p = A.page p := by
  rw [page, page, htbl, hent]

theorem page_addMid (p : Nat) : (A.addMid r T).page p = A.page p := by
  obtain ⟨htbl, -, hent⟩ := A.addMid_leaf (r := r) (T := T) (p / 64)
  exact page_congr htbl (by rw [hent])

theorem page_addLeaf (hq : A.tbl (.lvl3 q) = none) (p : Nat) :
    (A.addLeaf q U).page p = A.page p := by
  obtain ⟨htbl, -, hent⟩ := A.addLeaf_leaf (q := q) (U := U) (p / 64)
  by_cases h : p / 64 = q
  · rw [page_of_none (A := A) (h ▸ hq), page_of_some (htbl.trans (if_pos h))]
    exact (hent _).trans (if_pos h)
  · exact page_congr (htbl.trans (if_neg h)) ((hent _).trans (if_neg h))

theorem page_putPage (hU : A.tbl (.lvl3 (p / 64)) = some U) (p' : Nat) :
    (A.putPage p v).page p' = if p' = p then v else A.page p' := by
  obtain ⟨htbl, -, hent⟩ := A.putPage_leaf (p := p) (v := v) (p' / 64)
  by_cases h : p' = p
  · subst h
    rw [if_pos rfl, page_of_some (htbl.trans hU), hent, if_pos ⟨rfl, rfl⟩]
  · rw [if_neg h]
    refine page_congr htbl ((hent _).trans (if_neg ?_))
    rintro ⟨h1, h2⟩
    omega

theorem page_putLarge (p : Nat) :
    (A.putLarge r v).page p = if p / 4096 = r then 0 else A.page p := by
  have hq : p / 64 / 64 = p / 4096 := by omega
  by_cases h : p / 4096 = r
  · rw [if_pos h]
    exact page_of_none (if_pos (hq.trans h))
  · rw [if_neg h]
    exact page_congr (if_neg (fun e => h (hq.symm.trans e))) rfl

theorem large_congr {A' : PgTree} {r : Nat} (h : A'.top r = A.top r) : A'.large r = A.large r := by
  rw [large, large, h]

theorem large_putLarge (hv : isPtEntry v = true) (r' : Nat) :
    (A.putLarge r v).large r' = if r' = r then v else A.large r' := by
  have htop : (A.putLarge r v).top r' = if r' = r then v else A.top r' :=
    Function.update_apply A.top r v r'
  by_cases h : r' = r
  · rw [large, htop, if_pos h, if_pos h, if_pos hv]
  · rw [if_neg h]
    exact large_congr (htop.trans (if_neg h))

end PgTree

/-! ## 2. Buffers of changed trees -/

section Owned

variable {s s' : Srmmu} {A A' : PgTree} {lvl1 T : Nat} {k : TblKey}

theorem Owned.congr (h : Owned s A) (hheap : s'.heap = s.heap)
    (htbl : ∀ k T, A.tbl k = some T → A'.tbl k = some T) : Owned s' A' := by
  intro b hb
  obtain ⟨k, T, hk, h1, h2⟩ := h b (hheap ▸ hb)
  exact ⟨k, T, htbl k T hk, h1, h2⟩

/-- A new table owns the new buffer. -/
theorem Owned.build (h : Owned s A) (hn : NewTbl s s' lvl1 T) (hk : A'.tbl k = some T)
    (htbl : ∀ k' T', A.tbl k' = some T' → A'.tbl k' = some T') : Owned s' A' := by
  obtain ⟨B, -, hheap, h1, h2, -⟩ := hn.buf
  intro b hb
  rw [hheap] at hb
  rcases List.mem_cons.mp hb with rfl | hb
  · exact ⟨k, T, hk, h1, h2⟩
  · obtain ⟨k', T', hk', h3, h4⟩ := h b hb
    exact ⟨k', T', htbl k' T' hk', h3, h4⟩

end Owned

/-! ## 3. The tables of an address -/

theorem enomem_ne : -(ENOMEM : Int) ≠ 0 := by decide

theorem einval_ne : -(EINVAL : Int) ≠ 0 := by decide

section Need

variable {ex : Prop} {s : Srmmu} {lvl1 va T : Nat} {A : PgTree}

/-- **`mmu_need_lvl2_tbl`**, where there is no table yet: it links an empty one, or it fails and
changes nothing. -/
theorem Good.needLvl2Tbl (h : Good ex s lvl1 A) (hok : AnswersOk lvl1 s.heap s.answers)
    (hun : Unaligned s.answers) (hva : va < 2 ^ 32)
    (hnone : A.tbl (.lvl2 (va / 2 ^ 24)) = none) :
    ((mmuNeedLvl2Tbl s lvl1 va).2 ≠ 0 ∧ Good ex (mmuNeedLvl2Tbl s lvl1 va).1 lvl1 A ∧
      (mmuNeedLvl2Tbl s lvl1 va).1.pages = s.pages) ∨
    (A.top (va / 2 ^ 24) = 0 ∧ ∃ s' T, mmuNeedLvl2Tbl s lvl1 va = (s', 0) ∧
      isPtEntry (srmmuPtd T) = false ∧ Good ex s' lvl1 (A.addMid (va / 2 ^ 24) T) ∧
      s'.pages = s.pages ∧ AnswersOk lvl1 s'.heap s'.answers ∧ Unaligned s'.answers) := by
  have hr : va / 2 ^ 24 < 256 := by omega
  have hoff : srmmuLvl1GetTblOffset va = va / 2 ^ 24 := Nat.mod_eq_of_lt hr
  have hentry : s.entry lvl1 (va / 2 ^ 24) = A.top (va / 2 ^ 24) := h.rep.entry_top hr
  rcases h.shape.topNone _ hr hnone with h0 | hpt
  · rcases mmuAllocTbl_spec hok hun with ⟨hnull, hmem, hheap, hpages⟩ | ⟨hT0, hn⟩
    · left
      have hres : mmuNeedLvl2Tbl s lvl1 va = ((mmuAllocTbl s 256).1, -(ENOMEM : Int)) := by
        simp only [mmuNeedLvl2Tbl, hoff, hentry, srmmuTblLvl2Align, hnull, h0]
        rfl
      rw [hres]
      exact ⟨enomem_ne, ⟨h.rep.congr hmem hheap, h.shape, h.counted,
        fun hx => (h.owned hx).congr hheap (fun _ _ hk => hk)⟩, hpages⟩
    · right
      obtain ⟨T, hT⟩ : ∃ T, T = (mmuAllocTbl s 256).2 := ⟨_, rfl⟩
      obtain ⟨s₁, hs₁⟩ : ∃ s₁, s₁ = (mmuAllocTbl s 256).1 := ⟨_, rfl⟩
      rw [← hT] at hT0 hn
      rw [← hs₁] at hn
      obtain ⟨-, -, hheap, hpages, hans⟩ := mmuSetTblInvalid_spec s₁ T 64
      have hbuild := h.rep.build hn (.lvl2 (va / 2 ^ 24))
      obtain ⟨s₂, hs₂⟩ : ∃ s₂, s₂ = mmuSetTblInvalid s₁ T 64 := ⟨_, rfl⟩
      rw [← hs₂] at hheap hpages hans hbuild
      obtain ⟨B, hfresh, -, hB1, hB2, -⟩ := hn.buf
      have hbound := hfresh.bound
      obtain ⟨hptd, -, -⟩ := srmmuPtd_spec hn.aligned (by omega)
      refine ⟨h0, s₂.write (entryAddr lvl1 (va / 2 ^ 24)) (srmmuPtd T), T, ?_, hptd,
        ⟨hbuild.setTop (srmmuPtd T) hr, h.shape.addMid hr hnone, ?_, fun hx => ?_⟩,
        hpages.trans hn.pages, ?_, ?_⟩
      · simp only [mmuNeedLvl2Tbl, hoff, hentry, h0, srmmuTblLvl2Align, srmmuSizeTblLvl2, ← hT,
          ← hs₁, ← hs₂, if_neg hT0]
        rfl
      · intro q U hU
        obtain ⟨htbl, hcnt, -⟩ := A.addMid_leaf (r := va / 2 ^ 24) (T := T) q
        rw [hcnt]
        exact h.counted q U (htbl ▸ hU)
      · have hown := (h.owned hx).build hn PgTree.addTbl_self
          (fun k' T' hk' => PgTree.addTbl_of_some hnone hk')
        exact hown.congr hheap (fun _ _ hk => hk)
      · exact hheap.symm ▸ hans.symm ▸ hn.answers.1
      · exact hans.symm ▸ hn.answers.2
  · left
    have hres : mmuNeedLvl2Tbl s lvl1 va = (s, -(EINVAL : Int)) := by
      simp only [mmuNeedLvl2Tbl, hoff, hentry, hpt, if_true]
    rw [hres]
    exact ⟨einval_ne, h, rfl⟩

theorem mmuMakeLvl3Tbl_null {s s₁ : Srmmu} {T va : Nat} (h : mmuAllocTbl s 256 = (s₁, 0)) :
    mmuMakeLvl3Tbl s T va = .ok (s₁, -(ENOMEM : Int)) := by
  unfold mmuMakeLvl3Tbl
  rw [srmmuTblLvl3Align, h]
  simp only [if_true]

theorem mmuMakeLvl3Tbl_new {s s₁ s₂ : Srmmu} {T U va c : Nat} (h : mmuAllocTbl s 256 = (s₁, U))
    (h0 : U ≠ 0) (hinc : mmuIncRefCnt ((mmuSetTblInvalid s₁ U srmmuSizeTblLvl3).write
      (entryAddr T (srmmuLvl2GetTblOffset va)) (srmmuPtd U)) T srmmuTblLvl2Align = .ok (s₂, c)) :
    mmuMakeLvl3Tbl s T va = .ok (s₂, 0) := by
  unfold mmuMakeLvl3Tbl
  rw [srmmuTblLvl3Align, h]
  simp only [if_neg h0, hinc]

/-- The new level 3 table of an address: linked and counted, but empty. -/
theorem Good.makeLvl3Tbl (h : Good ex s lvl1 A) (hok : AnswersOk lvl1 s.heap s.answers)
    (hun : Unaligned s.answers) (hT : A.tbl (.lvl2 (va / 2 ^ 24)) = some T)
    (hnone : A.tbl (.lvl3 (va / 2 ^ 18)) = none) :
    (∃ s' ret, mmuMakeLvl3Tbl s T va = .ok (s', ret) ∧ ret ≠ 0 ∧ Good ex s' lvl1 A ∧
      s'.pages = s.pages) ∨
    (∃ s' U, mmuMakeLvl3Tbl s T va = .ok (s', 0) ∧ Rep s' lvl1 (A.addLeaf (va / 2 ^ 18) U) ∧
      srmmuPtd U ≠ 0 ∧ (ex → Owned s' (A.addLeaf (va / 2 ^ 18) U)) ∧ s'.pages = s.pages) := by
  have hq : va / 2 ^ 18 / 64 = va / 2 ^ 24 := by omega
  rcases mmuAllocTbl_spec hok hun with ⟨hnull, hmem, hheap, hpages⟩ | ⟨hU0, hn⟩
  · left
    exact ⟨(mmuAllocTbl s 256).1, -(ENOMEM : Int), mmuMakeLvl3Tbl_null (Prod.ext rfl hnull),
      enomem_ne, ⟨h.rep.congr hmem hheap, h.shape, h.counted,
      fun hx => (h.owned hx).congr hheap (fun _ _ hk => hk)⟩, hpages⟩
  · right
    obtain ⟨U, hU⟩ : ∃ U, U = (mmuAllocTbl s 256).2 := ⟨_, rfl⟩
    obtain ⟨s₁, hs₁⟩ : ∃ s₁, s₁ = (mmuAllocTbl s 256).1 := ⟨_, rfl⟩
    rw [← hU] at hU0 hn
    rw [← hs₁] at hn
    obtain ⟨-, -, hheap, hpages, -⟩ := mmuSetTblInvalid_spec s₁ U 64
    have hbuild := h.rep.build hn (.lvl3 (va / 2 ^ 18))
    obtain ⟨s₂, hs₂⟩ : ∃ s₂, s₂ = mmuSetTblInvalid s₁ U 64 := ⟨_, rfl⟩
    rw [← hs₂] at hheap hpages hbuild
    obtain ⟨B, hfresh, -, hB1, hB2, -⟩ := hn.buf
    have hbound := hfresh.bound
    obtain ⟨-, hptd, -⟩ := srmmuPtd_spec hn.aligned (by omega)
    have hT' := PgTree.addTbl_of_some (T := U) hnone hT
    have hset := hbuild.setEnt (i := va / 2 ^ 18 % 64) (srmmuPtd U) hT' (Nat.mod_lt _ (by norm_num))
    have hcnt : ((A.addTbl (.lvl3 (va / 2 ^ 18)) U).setEnt (.lvl2 (va / 2 ^ 24)) (va / 2 ^ 18 % 64)
        (srmmuPtd U)).cnt (.lvl2 (va / 2 ^ 24)) = A.cnt (.lvl2 (va / 2 ^ 24)) := by
      simp [PgTree.setEnt, PgTree.addTbl]
    have hle := usedOf_le (A.ent (.lvl2 (va / 2 ^ 24)))
    have hlt : A.cnt (.lvl2 (va / 2 ^ 24)) + 1 < 2 ^ 32 := by
      rw [h.shape.cnt2 _ T hT]
      omega
    obtain ⟨s', hinc, hrep, hheap', hpages'⟩ := hset.incRefCnt (k := .lvl2 (va / 2 ^ 24)) (n := 256) hT' (by rwa [hcnt])
    rw [hcnt] at hinc hrep
    refine ⟨s', U, mmuMakeLvl3Tbl_new (Prod.ext hs₁.symm hU.symm) hU0 (hs₂ ▸ hinc), ?_, hptd,
      fun hx => ?_, hpages'.trans (hpages.trans hn.pages)⟩
    · rw [PgTree.addLeaf, hq]
      exact hrep
    · have hown := (h.owned hx).build hn PgTree.addTbl_self
        (fun k' T' hk' => PgTree.addTbl_of_some hnone hk')
      exact hown.congr (hheap'.trans hheap) (fun _ _ hk => hk)

/-- A table is there to take the entry of an address, and no page has changed on the way. -/
structure LeafReady (ex : Prop) (s : Srmmu) (lvl1 va U : Nat) (A A' : PgTree) : Prop where
  rep : Rep s lvl1 A'
  shape : Shape ex A'
  owned : ex → Owned s A'
  counted : ∀ q U', q ≠ va / 2 ^ 18 → A'.tbl (.lvl3 q) = some U' → 0 < A'.cnt (.lvl3 q)
  tbl : A'.tbl (.lvl3 (va / 2 ^ 18)) = some U
  room : A'.cnt (.lvl3 (va / 2 ^ 18)) + 1 < 2 ^ 32
  page : ∀ p, A'.page p = A.page p
  large : ∀ r, A'.large r = A.large r

/-- A call that failed and changed no page. -/
structure Unmapped (ex : Prop) (s s' : Srmmu) (lvl1 : Nat) (A A' : PgTree) : Prop where
  good : Good ex s' lvl1 A'
  pages : s'.pages = s.pages
  page : ∀ p, A'.page p = A.page p
  large : ∀ r, A'.large r = A.large r

/-- `mmu_make_lvl3_tbl` in a tree that differs from the one before by an empty table at most. -/
theorem Good.makeReady {s₁ : Srmmu} {A₁ : PgTree} (h : Good ex s₁ lvl1 A₁)
    (hok : AnswersOk lvl1 s₁.heap s₁.answers) (hun : Unaligned s₁.answers)
    (hT : A₁.tbl (.lvl2 (va / 2 ^ 24)) = some T) (hnone : A₁.tbl (.lvl3 (va / 2 ^ 18)) = none)
    (hpages : s₁.pages = s.pages) (hpage : ∀ p, A₁.page p = A.page p)
    (hlarge : ∀ r, A₁.large r = A.large r) :
    (∃ s' ret A', mmuMakeLvl3Tbl s₁ T va = .ok (s', ret) ∧ ret ≠ 0 ∧ Unmapped ex s s' lvl1 A A') ∨
    (∃ s' U A', mmuMakeLvl3Tbl s₁ T va = .ok (s', 0) ∧ LeafReady ex s' lvl1 va U A A' ∧
      s'.pages = s.pages) := by
  have hq : va / 2 ^ 18 / 64 = va / 2 ^ 24 := by omega
  rcases h.makeLvl3Tbl hok hun hT hnone with
    ⟨s', ret, hres, hret, hgood, hp⟩ | ⟨s', U, hres, hrep, hptd, hown, hp⟩
  · exact Or.inl ⟨s', ret, A₁, hres, hret, hgood, hp.trans hpages, hpage, hlarge⟩
  · obtain ⟨htbl, hcnt, -⟩ := A₁.addLeaf_leaf (q := va / 2 ^ 18) (U := U) (va / 2 ^ 18)
    refine Or.inr ⟨s', U, A₁.addLeaf (va / 2 ^ 18) U, hres, ⟨hrep, ?_, hown, ?_, ?_, ?_, ?_, ?_⟩,
      hp.trans hpages⟩
    · exact h.shape.addLeaf (by rw [hq, hT]; exact Option.some_ne_none T) hnone hptd
    · intro q U' hne hU'
      obtain ⟨htbl', hcnt', -⟩ := A₁.addLeaf_leaf (q := va / 2 ^ 18) (U := U) q
      rw [htbl', if_neg hne] at hU'
      rw [hcnt', if_neg hne]
      exact h.counted q U' hU'
    · rw [htbl, if_pos rfl]
    · rw [hcnt, if_pos rfl]
      norm_num
    · exact fun p => (PgTree.page_addLeaf hnone p).trans (hpage p)
    · exact fun r => (PgTree.large_congr (A₁.addLeaf_mid r).2.2.1).trans (hlarge r)

/-- **`mmu_need_lvl3_tbl`** -/
theorem Good.needLvl3Tbl (h : Good ex s lvl1 A) (hok : AnswersOk lvl1 s.heap s.answers)
    (hun : Unaligned s.answers) (hva : va < 2 ^ 32)
    (hroom : ∀ U, A.tbl (.lvl3 (va / 2 ^ 18)) = some U → A.cnt (.lvl3 (va / 2 ^ 18)) + 1 < 2 ^ 32) :
    (∃ s' ret A', mmuNeedLvl3Tbl s lvl1 va = .ok (s', ret) ∧ ret ≠ 0 ∧
      Unmapped ex s s' lvl1 A A') ∨
    (∃ s' U A', mmuNeedLvl3Tbl s lvl1 va = .ok (s', 0) ∧ LeafReady ex s' lvl1 va U A A' ∧
      s'.pages = s.pages) := by
  have hq : va / 2 ^ 18 / 64 = va / 2 ^ 24 := by omega
  have hfind3 := h.findTblLvl3 hva
  have hfind2 := h.findTblLvl2 hva
  cases hU : A.tbl (.lvl3 (va / 2 ^ 18)) with
  | some U =>
    have hU0 : mmuFindTblLvl3 s lvl1 va ≠ 0 := by
      have := h.rep.bounds hU
      rw [hfind3, hU, Option.getD_some]
      omega
    have hres : mmuNeedLvl3Tbl s lvl1 va = .ok (s, 0) := if_pos hU0
    exact Or.inr ⟨s, U, A, hres, ⟨h.rep, h.shape, h.owned, fun q U' _ => h.counted q U', hU,
      hroom U hU, fun _ => rfl, fun _ => rfl⟩, rfl⟩
  | none =>
    rw [hU, Option.getD_none] at hfind3
    cases hT : A.tbl (.lvl2 (va / 2 ^ 24)) with
    | some T =>
      have hT0 : T ≠ 0 := by
        have := h.rep.bounds hT
        omega
      rw [hT, Option.getD_some] at hfind2
      have hres : mmuNeedLvl3Tbl s lvl1 va = mmuMakeLvl3Tbl s T va := by
        unfold mmuNeedLvl3Tbl
        rw [hfind3, hfind2]
        simp only [ne_eq, not_true, if_false, if_pos hT0]
      rw [hres]
      exact h.makeReady hok hun hT hU rfl (fun _ => rfl) (fun _ => rfl)
    | none =>
      rw [hT, Option.getD_none] at hfind2
      have hstep : mmuNeedLvl3Tbl s lvl1 va =
          if (mmuNeedLvl2Tbl s lvl1 va).2 ≠ 0 then .ok (mmuNeedLvl2Tbl s lvl1 va)
          else mmuMakeLvl3Tbl (mmuNeedLvl2Tbl s lvl1 va).1
            (mmuFindTblLvl2 (mmuNeedLvl2Tbl s lvl1 va).1 lvl1 va) va := by
        unfold mmuNeedLvl3Tbl
        rw [hfind3, hfind2]
        simp only [ne_eq, not_true, if_false]
      rw [hstep]
      rcases h.needLvl2Tbl hok hun hva hT with
        ⟨hret, hgood, hp⟩ | ⟨htop, s₁, T, heq, hptd, hgood, hp, hok₁, hun₁⟩
      · left
        exact ⟨_, _, A, if_pos hret, hret, hgood, hp, fun _ => rfl, fun _ => rfl⟩
      · obtain ⟨hT', -, htop', -⟩ := A.addMid_mid (r := va / 2 ^ 24) (T := T) (va / 2 ^ 24)
        rw [if_pos rfl] at hT'
        have hfind := hgood.findTblLvl2 hva
        rw [hT', Option.getD_some] at hfind
        simp only [heq, ne_eq, not_true, if_false, hfind]
        refine hgood.makeReady hok₁ hun₁ hT' ?_ hp PgTree.page_addMid (fun r => ?_)
        · rw [(A.addMid_leaf _).1, hU]
        · -- a descriptor in the place of an invalid entry: no large page either way
          by_cases hr : r = va / 2 ^ 24
          · subst hr
            rw [PgTree.large, PgTree.large, htop', if_pos rfl, hptd, htop]
            rfl
          · exact PgTree.large_congr ((A.addMid_mid r).2.2.1.trans (if_neg hr))

end Need

/-! ## 4. The mapping calls -/

section Map

variable {ex : Prop} {s : Srmmu} {lvl1 va pa perm : Nat} {A A' : PgTree}

/-- The last step of a small mapping: the entry is stored and counted. -/
theorem LeafReady.putPage {U : Nat} (pa perm : Nat) (h : LeafReady ex s lvl1 va U A A')
    (hex : ex → A.page (va / 2 ^ 12) = 0) :
    ∃ s' c, mmuIncRefCnt (s.write (entryAddr U (va / 2 ^ 12 % 64)) (srmmuPte pa perm)) U 256 =
        .ok (s', c) ∧
      Good ex s' lvl1 (A'.putPage (va / 2 ^ 12) (srmmuPte pa perm)) ∧ s'.pages = s.pages := by
  have hq : va / 2 ^ 12 / 64 = va / 2 ^ 18 := by omega
  have hset := h.rep.setEnt (i := va / 2 ^ 12 % 64) (srmmuPte pa perm) h.tbl
    (Nat.mod_lt _ (by norm_num))
  obtain ⟨s', hinc, hrep, hheap, hpages⟩ :=
    hset.incRefCnt (k := .lvl3 (va / 2 ^ 18)) (n := 256) h.tbl h.room
  have hput : A'.putPage (va / 2 ^ 12) (srmmuPte pa perm) =
      (A'.setEnt (.lvl3 (va / 2 ^ 18)) (va / 2 ^ 12 % 64) (srmmuPte pa perm)).setCnt
        (.lvl3 (va / 2 ^ 18)) (A'.cnt (.lvl3 (va / 2 ^ 18)) + 1) := by
    rw [PgTree.putPage, hq]
  refine ⟨s', _, hinc, ⟨hput ▸ hrep, ?_, ?_, fun hx => ?_⟩, hpages⟩
  · refine h.shape.putPage (hq.symm ▸ h.tbl) (hq.symm ▸ h.room) (isPtEntry_srmmuPte pa perm)
      (fun hx => ?_)
    rw [← PgTree.page_of_some (hq.symm ▸ h.tbl), h.page]
    exact hex hx
  · intro q U' hU'
    obtain ⟨htbl, hcnt, -⟩ := A'.putPage_leaf (p := va / 2 ^ 12) (v := srmmuPte pa perm) q
    rw [hcnt]
    split
    next => exact Nat.succ_pos _
    next hne => exact h.counted q U' (fun e => hne (e.trans hq.symm)) (htbl ▸ hU')
  · exact (h.owned hx).congr hheap (fun k T hk => hput ▸ hk)

/-- **`srmmu_do_small_mapping`** always returns.  On success one page has a new entry, and nothing
else has changed; on failure no page has changed. -/
theorem Good.mapSmall (pa perm : Nat) (h : Good ex s lvl1 A) (hok : AnswersOk lvl1 s.heap s.answers)
    (hun : Unaligned s.answers) (hva : va < 2 ^ 32)
    (hroom : ∀ U, A.tbl (.lvl3 (va / 2 ^ 18)) = some U → A.cnt (.lvl3 (va / 2 ^ 18)) + 1 < 2 ^ 32)
    (hex : ex → A.page (va / 2 ^ 12) = 0) :
    ∃ s' ret A', mapSmall s lvl1 va pa perm = .ok (s', ret) ∧ Good ex s' lvl1 A' ∧
      s'.pages = s.pages ∧ (∀ r, A'.large r = A.large r) ∧
      ∀ p, A'.page p = if ret = 0 ∧ p = va / 2 ^ 12 then srmmuPte pa perm else A.page p := by
  rcases h.needLvl3Tbl hok hun hva hroom with
    ⟨s₁, ret, A₁, hneed, hret, hun₁⟩ | ⟨s₁, U, A₁, hneed, hready, hp⟩
  · refine ⟨s₁, ret, A₁, ?_, hun₁.good, hun₁.pages, hun₁.large, fun p => ?_⟩
    · unfold FlightOs.mapSmall
      rw [hneed]
      exact if_pos hret
    · rw [if_neg (fun e => hret e.1), hun₁.page]
  · have hq : va / 2 ^ 12 / 64 = va / 2 ^ 18 := by omega
    obtain ⟨s', c, hinc, hgood, hp'⟩ := hready.putPage pa perm hex
    have hfind : mmuFindTblLvl3 s₁ lvl1 va = U := hready.rep.findLeaf hready.shape hva hready.tbl
    refine ⟨s', 0, A₁.putPage (va / 2 ^ 12) (srmmuPte pa perm), ?_, hgood, hp'.trans hp,
      fun r => ?_, fun p => ?_⟩
    · unfold FlightOs.mapSmall
      rw [hneed]
      simp only [ne_eq, not_true, if_false, hfind]
      have hinc' : mmuIncRefCnt (s₁.write (entryAddr U (srmmuLvl3GetTblOffset va))
          (srmmuPte pa perm)) U srmmuTblLvl3Align = .ok (s', c) := hinc
      rw [hinc']
    · exact (PgTree.large_congr (A₁.putPage_mid r).2.2.1).trans (hready.large r)
    · rw [PgTree.page_putPage (hq.symm ▸ hready.tbl), hready.page]
      simp

/-- **`srmmu_do_large_mapping`** puts a large page in the place of what the region held.  Tables
that the region had are lost. -/
theorem Good.mapLarge (h : Good ex s lvl1 A) (hva : va < 2 ^ 32)
    (hex : ex → A.tbl (.lvl2 (va / 2 ^ 24)) = none) :
    Good ex (mapLarge s lvl1 va pa perm) lvl1 (A.putLarge (va / 2 ^ 24) (srmmuPte pa perm)) := by
  have hr : va / 2 ^ 24 < 256 := by omega
  have hoff : srmmuLvl1GetTblOffset va = va / 2 ^ 24 := Nat.mod_eq_of_lt hr
  have htbl : ∀ k T, (A.putLarge (va / 2 ^ 24) (srmmuPte pa perm)).tbl k = some T →
      A.tbl k = some T := by
    intro k T hk
    cases k <;>
    · simp only [PgTree.putLarge] at hk
      split at hk
      next => cases hk
      next => exact hk
  refine ⟨?_, h.shape.putLarge (isPtEntry_srmmuPte pa perm),
    fun q U hU => h.counted q U (htbl _ _ hU), fun hx => ?_⟩
  · rw [FlightOs.mapLarge, hoff]
    exact (h.rep.setTop (srmmuPte pa perm) hr).forget htbl
  · refine (h.owned hx).congr rfl (fun k T hk => ?_)
    cases k with
    | lvl2 r =>
      refine (if_neg ?_).trans hk
      rintro rfl
      rw [hex hx] at hk
      cases hk
    | lvl3 q =>
      refine (if_neg ?_).trans hk
      intro hq
      exact (h.shape.midTbl q T hk).1 (hq ▸ hex hx)

end Map

end FlightOs
