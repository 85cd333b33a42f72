/-
# Small mappings that fail

A small mapping asks the allocator for the tables that are missing, of level 2 first, and fails when
there is none, when the region is a large page, or when there is no such context.

A failure is without effect as long as it is the first request that fails
(`srmmuDoSmallMapping_failed_iff`).  When the table of level 2 is new and that of level 3 cannot be
had, the new table stays linked, without an entry, and no mapping that would make the release come
by it.  This is so for every content of the memory, so nothing is assumed of the tables.
-/
import FlightOs.Srmmu.Map

namespace FlightOs

/-! ## 1. Failures and their effects -/

/-- How many tables a small mapping asks for. -/
def smallMapAsks (s : Srmmu) (lvl1 va : Nat) : Nat :=
  let pte := s.entry lvl1 (srmmuLvl1GetTblOffset va)
  if mmuFindTblLvl3 s lvl1 va ≠ 0 then 0
  else if mmuFindTblLvl2 s lvl1 va ≠ 0 then 1
  else if isPtEntry pte then 0
  else if pte = 0 then 2
  else 1

/-- The allocator fails at one of the requests: it answers with `NULL`. -/
def AllocatorFails (s : Srmmu) (lvl1 va : Nat) : Prop :=
  ∃ k < smallMapAsks s lvl1 va, s.answers.getD k 0 = 0 ∧ ∀ j < k, s.answers.getD j 0 ≠ 0

/-- The number of the context is too large, or there is no such context, or the region is a large
page, or the allocator fails. -/
def SmallMapFails (s : Srmmu) (c : MmuCtxs) (ctxNum va : Nat) : Prop :=
  c.num < ctxNum ∨ mmuFindCtx c ctxNum = none ∨
    ∃ lvl1, mmuFindCtx c ctxNum = some lvl1 ∧
      (isPtEntry (s.entry lvl1 (srmmuLvl1GetTblOffset va)) = true ∨ AllocatorFails s lvl1 va)

/-- The count of a table. -/
def mmuRefCnt (s : Srmmu) (tbl tblSize : Nat) : Except Halt Nat := (mmuRefSlot s tbl tblSize).map s.mem

/-- The translations of all contexts, their tables and the counts of these are the same. -/
structure SameTables (c : MmuCtxs) (s s' : Srmmu) : Prop where
  large : ∀ p ∈ c.used ++ c.free, ∀ va, s'.entry p.2 (srmmuLvl1GetTblOffset va) =
    s.entry p.2 (srmmuLvl1GetTblOffset va)
  small : ∀ p ∈ c.used ++ c.free, ∀ va, getPaPage s' p.2 va = getPaPage s p.2 va
  lvl2 : ∀ p ∈ c.used ++ c.free, ∀ va, mmuFindTblLvl2 s' p.2 va = mmuFindTblLvl2 s p.2 va
  lvl3 : ∀ p ∈ c.used ++ c.free, ∀ va, mmuFindTblLvl3 s' p.2 va = mmuFindTblLvl3 s p.2 va
  counts : ∀ p ∈ c.used ++ c.free, ∀ va,
    mmuRefCnt s' (mmuFindTblLvl2 s p.2 va) srmmuTblLvl2Align =
      mmuRefCnt s (mmuFindTblLvl2 s p.2 va) srmmuTblLvl2Align ∧
    mmuRefCnt s' (mmuFindTblLvl3 s p.2 va) srmmuTblLvl3Align =
      mmuRefCnt s (mmuFindTblLvl3 s p.2 va) srmmuTblLvl3Align

/-- The call reports an error and has no other effect. -/
def FailsClean (s : Srmmu) (c : MmuCtxs) (ctxNum va pa perm : Nat) : Prop :=
  ∃ s' ret, srmmuDoSmallMapping s c ctxNum va pa perm = .ok (s', ret) ∧ ret ≠ 0 ∧ SameTables c s s'

section Failure

variable {s s' : Srmmu} {c : MmuCtxs} {ctxNum lvl1 va pa perm a : Nat} {as : List Nat}

theorem mmuFindTblLvl2_congr (hmem : s'.mem = s.mem) (lvl1 va : Nat) :
    mmuFindTblLvl2 s' lvl1 va = mmuFindTblLvl2 s lvl1 va := by
  unfold mmuFindTblLvl2 Srmmu.entry
  rw [hmem]

/-- What the memory holds is all there is to the tables. -/
theorem SameTables.of_mem (hmem : s'.mem = s.mem) : SameTables c s s' := by
  have hentry : ∀ tbl i, s'.entry tbl i = s.entry tbl i := fun tbl i => congrFun hmem _
  have h2 := mmuFindTblLvl2_congr hmem
  have h3 : ∀ lvl1 va, mmuFindTblLvl3 s' lvl1 va = mmuFindTblLvl3 s lvl1 va := by
    intro lvl1 va
    unfold mmuFindTblLvl3
    simp only [h2, hentry]
  have hcnt : ∀ tbl n, mmuRefCnt s' tbl n = mmuRefCnt s tbl n := by
    intro tbl n
    unfold mmuRefCnt mmuRefSlot mmuMarker
    rw [hmem, hentry]
  refine ⟨fun p _ va => hentry _ _, fun p _ va => ?_, fun p _ va => h2 _ _, fun p _ va => h3 _ _,
    fun p _ va => ⟨hcnt _ _, hcnt _ _⟩⟩
  unfold getPaPage
  simp only [h3, hentry]

/-! ## 2. Answers of the allocator -/

/-- A request that is answered with `NULL` leaves no trace. -/
theorem mmuAllocTbl_failed (h : s.answers.getD 0 0 = 0) : ∃ s', mmuAllocTbl s 256 = (s', 0) ∧
    s'.mem = s.mem := by
  cases hans : s.answers with
  | nil => exact ⟨s, by simp [mmuAllocTbl, Srmmu.alloc, hans], rfl⟩
  | cons a as =>
    rw [hans, List.getD_cons_zero] at h
    exact ⟨{ s with answers := as }, by simp [mmuAllocTbl, Srmmu.alloc, hans, h], rfl⟩

/-- One that is answered with a buffer makes a table in it. -/
theorem mmuAllocTbl_made (hans : s.answers = a :: as) (h0 : a ≠ 0) (hend : a + 512 ≤ 2 ^ 32) :
    ∃ s' T, mmuAllocTbl s 256 = (s', T) ∧ 256 ∣ T ∧ T ≠ 0 ∧ T < 2 ^ 32 ∧ s'.answers = as := by
  obtain ⟨hal, hge, hlt⟩ := walign_spec (x := a) (a := 256) (by norm_num) (by omega)
  refine ⟨(mmuAllocTbl s 256).1, walign a 256, ?_, hal, by omega, by omega, ?_⟩
  · refine Prod.ext rfl ?_
    simp only [mmuAllocTbl, Srmmu.alloc, hans, if_neg h0]
    split <;> rfl
  · simp only [mmuAllocTbl, Srmmu.alloc, hans, if_neg h0]
    split <;> rfl

/-! ## 3. The call -/

theorem mmuFindCtx_mem (h : mmuFindCtx c ctxNum = some lvl1) :
    c.num < ctxNum ∨ (ctxNum, lvl1) ∈ c.used ++ c.free := by
  unfold mmuFindCtx at h
  split at h
  · cases h
  · obtain ⟨p, hp, rfl⟩ := Option.map_eq_some_iff.mp h
    have hnum : p.1 = ctxNum := by simpa using List.find?_some hp
    exact Or.inr (hnum ▸ List.mem_of_find?_eq_some hp)

/-- A call whose tables cannot be had returns what looking for them has returned. -/
theorem srmmuDoSmallMapping_need (hctx : mmuFindCtx c ctxNum = some lvl1) {ret : Int}
    (hneed : mmuNeedLvl3Tbl s lvl1 va = .ok (s', ret)) (hret : ret ≠ 0) :
    srmmuDoSmallMapping s c ctxNum va pa perm = .ok (s', ret) := by
  have hnum : ¬ c.num < ctxNum := by
    intro h
    rw [mmuFindCtx, if_pos h] at hctx
    cases hctx
  rw [srmmuDoSmallMapping, if_neg hnum, hctx]
  dsimp only
  rw [mapSmall, hneed]
  exact if_pos hret

theorem FailsClean.of_mem (hctx : mmuFindCtx c ctxNum = some lvl1) {ret : Int}
    (hneed : mmuNeedLvl3Tbl s lvl1 va = .ok (s', ret)) (hret : ret ≠ 0) (hmem : s'.mem = s.mem) :
    FailsClean s c ctxNum va pa perm :=
  ⟨s', ret, srmmuDoSmallMapping_need hctx hneed hret, hret, .of_mem hmem⟩

/-- The region is a large page. -/
theorem mmuNeedLvl3Tbl_large (h : isPtEntry (s.entry lvl1 (srmmuLvl1GetTblOffset va)) = true) :
    mmuNeedLvl3Tbl s lvl1 va = .ok (s, -(EINVAL : Int)) := by
  have h2 : mmuFindTblLvl2 s lvl1 va = 0 := if_pos h
  have h3 : mmuFindTblLvl3 s lvl1 va = 0 := if_pos h2
  have hneed : mmuNeedLvl2Tbl s lvl1 va = (s, -(EINVAL : Int)) := if_pos h
  simp only [mmuNeedLvl3Tbl, h2, h3, hneed]
  rfl

/-- A large page asks for nothing. -/
theorem smallMapAsks_large (h : isPtEntry (s.entry lvl1 (srmmuLvl1GetTblOffset va)) = true) :
    smallMapAsks s lvl1 va = 0 := by
  have h2 : mmuFindTblLvl2 s lvl1 va = 0 := if_pos h
  have h3 : mmuFindTblLvl3 s lvl1 va = 0 := if_pos h2
  simp [smallMapAsks, h2, h3, h]

theorem smallMapAsks_le (s : Srmmu) (lvl1 va : Nat) : smallMapAsks s lvl1 va ≤ 2 := by
  unfold smallMapAsks
  dsimp only
  split_ifs <;> omega

/-- The first request fails. -/
theorem mmuNeedLvl3Tbl_first (hasks : 0 < smallMapAsks s lvl1 va) (h : s.answers.getD 0 0 = 0) :
    ∃ s', mmuNeedLvl3Tbl s lvl1 va = .ok (s', -(ENOMEM : Int)) ∧ s'.mem = s.mem := by
  obtain ⟨s', halloc, hmem⟩ := mmuAllocTbl_failed h
  refine ⟨s', ?_, hmem⟩
  unfold smallMapAsks at hasks
  dsimp only at hasks
  by_cases h3 : mmuFindTblLvl3 s lvl1 va = 0
  case neg =>
    rw [if_pos h3] at hasks
    omega
  rw [mmuNeedLvl3Tbl, if_neg (not_not.mpr h3)]
  dsimp only
  by_cases h2 : mmuFindTblLvl2 s lvl1 va = 0
  case neg => rw [if_pos h2, mmuMakeLvl3Tbl_null halloc]
  rw [if_neg (not_not.mpr h3), if_neg (not_not.mpr h2)] at hasks
  rw [if_neg (not_not.mpr h2)]
  by_cases hpt : isPtEntry (s.entry lvl1 (srmmuLvl1GetTblOffset va)) = true
  case pos =>
    rw [if_pos hpt] at hasks
    omega
  by_cases h0 : s.entry lvl1 (srmmuLvl1GetTblOffset va) = 0
  · have hneed : mmuNeedLvl2Tbl s lvl1 va = (s', -(ENOMEM : Int)) := by
      unfold mmuNeedLvl2Tbl
      dsimp only
      rw [if_neg hpt, if_neg (not_not.mpr h0), srmmuTblLvl2Align, halloc]
      rfl
    rw [hneed]
    rfl
  · have hneed : mmuNeedLvl2Tbl s lvl1 va = (s, 0) := by
      unfold mmuNeedLvl2Tbl
      dsimp only
      rw [if_neg hpt, if_pos h0]
    rw [hneed]
    dsimp only
    rw [if_neg (by decide), h2, mmuMakeLvl3Tbl_null halloc]

/-- The second request fails: the table that the first one was for stays linked. -/
theorem mmuNeedLvl3Tbl_second (hasks : smallMapAsks s lvl1 va = 2) (hans : s.answers = a :: as)
    (h0 : a ≠ 0) (hend : a + 512 ≤ 2 ^ 32) (h : as.getD 0 0 = 0) :
    mmuFindTblLvl2 s lvl1 va = 0 ∧ ∃ s', mmuNeedLvl3Tbl s lvl1 va = .ok (s', -(ENOMEM : Int)) ∧
      mmuFindTblLvl2 s' lvl1 va ≠ 0 := by
  unfold smallMapAsks at hasks
  dsimp only at hasks
  by_cases h3 : mmuFindTblLvl3 s lvl1 va = 0
  case neg =>
    rw [if_pos h3] at hasks
    omega
  by_cases h2 : mmuFindTblLvl2 s lvl1 va = 0
  case neg =>
    rw [if_neg (not_not.mpr h3), if_pos h2] at hasks
    omega
  rw [if_neg (not_not.mpr h3), if_neg (not_not.mpr h2)] at hasks
  have hpt : ¬ isPtEntry (s.entry lvl1 (srmmuLvl1GetTblOffset va)) = true := by
    intro hpt
    rw [if_pos hpt] at hasks
    omega
  have hzero : s.entry lvl1 (srmmuLvl1GetTblOffset va) = 0 := by
    by_contra hne
    rw [if_neg hpt, if_neg hne] at hasks
    omega
  refine ⟨h2, ?_⟩
  obtain ⟨s₁, T, halloc, hal, hT0, hT, hans₁⟩ := mmuAllocTbl_made hans h0 hend
  obtain ⟨s₂, hs₂⟩ : ∃ s₂, s₂ = (mmuSetTblInvalid s₁ T srmmuSizeTblLvl2).write
    (entryAddr lvl1 (srmmuLvl1GetTblOffset va)) (srmmuPtd T) := ⟨_, rfl⟩
  have hneed : mmuNeedLvl2Tbl s lvl1 va = (s₂, 0) := by
    unfold mmuNeedLvl2Tbl
    dsimp only
    rw [if_neg hpt, if_neg (not_not.mpr hzero), srmmuTblLvl2Align, halloc, hs₂]
    exact if_neg hT0
  have hentry : s₂.entry lvl1 (srmmuLvl1GetTblOffset va) = srmmuPtd T := by
    rw [hs₂]
    exact Function.update_self _ _ _
  have hfind : mmuFindTblLvl2 s₂ lvl1 va = T := by
    obtain ⟨hp, hne, haddr⟩ := srmmuPtd_spec hal hT
    unfold mmuFindTblLvl2
    simp [hentry, hp, hne, haddr]
  have hans₂ : s₂.answers = as := by
    obtain ⟨-, -, -, -, hans'⟩ := mmuSetTblInvalid_spec s₁ T srmmuSizeTblLvl2
    simp only [hs₂, Srmmu.write, hans', hans₁]
  obtain ⟨s₃, halloc₂, hmem⟩ := mmuAllocTbl_failed (hans₂ ▸ h : s₂.answers.getD 0 0 = 0)
  refine ⟨s₃, ?_, ?_⟩
  · rw [mmuNeedLvl3Tbl, if_neg (not_not.mpr h3)]
    dsimp only
    rw [if_neg (not_not.mpr h2), hneed]
    dsimp only
    rw [if_neg (by decide), mmuMakeLvl3Tbl_null halloc₂]
  · rw [mmuFindTblLvl2_congr hmem, hfind]
    exact hT0

/-! ## 4. The law -/

/-- The table of level 2 is missing, and it can be had. -/
def LeavesEmptyTbl (s : Srmmu) (c : MmuCtxs) (ctxNum va : Nat) : Prop :=
  ∃ lvl1, mmuFindCtx c ctxNum = some lvl1 ∧ smallMapAsks s lvl1 va = 2 ∧ s.answers.getD 0 0 ≠ 0

/-- Where that is so, the failure is seen in the tables. -/
theorem not_failsClean (h : LeavesEmptyTbl s c ctxNum va) (hfails : SmallMapFails s c ctxNum va)
    (hend : ∀ a ∈ s.answers, a + 512 ≤ 2 ^ 32) : ¬ FailsClean s c ctxNum va pa perm := by
  obtain ⟨lvl1, hctx, hasks, hfirst⟩ := h
  obtain ⟨a, as, hans⟩ : ∃ a as, s.answers = a :: as := by
    cases hans : s.answers with
    | nil => exact absurd (by rw [hans]; rfl) hfirst
    | cons a as => exact ⟨a, as, rfl⟩
  have ha0 : a ≠ 0 := by simpa [hans] using hfirst
  -- it is the second request that fails
  have hsecond : as.getD 0 0 = 0 := by
    rcases hfails with hnum | hnone | ⟨lvl1', hctx', hlarge | ⟨k, hk, hnull, -⟩⟩
    · rw [mmuFindCtx, if_pos hnum] at hctx
      cases hctx
    · rw [hctx] at hnone
      cases hnone
    · rw [hctx] at hctx'
      obtain rfl := Option.some.inj hctx'
      rw [smallMapAsks_large hlarge] at hasks
      omega
    · rw [hctx] at hctx'
      obtain rfl := Option.some.inj hctx'
      rw [hasks] at hk
      cases k with
      | zero => exact absurd hnull hfirst
      | succ k =>
        obtain rfl : k = 0 := by omega
        rwa [hans, List.getD_cons_succ] at hnull
  obtain ⟨hbefore, s', hneed, hafter⟩ :=
    mmuNeedLvl3Tbl_second hasks hans ha0 (hend a (hans ▸ List.mem_cons_self)) hsecond
  rintro ⟨s'', ret, hrun, -, hsame⟩
  rw [srmmuDoSmallMapping_need hctx hneed (by decide)] at hrun
  obtain ⟨rfl, -⟩ := Prod.mk.inj (Except.ok.inj hrun)
  rcases mmuFindCtx_mem hctx with hnum | hmem
  · rw [mmuFindCtx, if_pos hnum] at hctx
    cases hctx
  · rw [hsame.lvl2 _ hmem va] at hafter
    exact hafter hbefore

end Failure

/-- **A small mapping that fails has no effect**, if and only if it is not the case that the table of
level 2 was missing and could be had. -/
theorem srmmuDoSmallMapping_failed_iff (s : Srmmu) (c : MmuCtxs) (ctxNum va pa perm : Nat)
    (hend : ∀ a ∈ s.answers, a + 512 ≤ 2 ^ 32) (hfails : SmallMapFails s c ctxNum va) :
    FailsClean s c ctxNum va pa perm ↔ ¬ LeavesEmptyTbl s c ctxNum va := by
  refine ⟨fun hclean h => not_failsClean h hfails hend hclean, fun hno => ?_⟩
  by_cases hnum : c.num < ctxNum
  · exact ⟨s, _, if_pos hnum, by decide, .of_mem rfl⟩
  cases hctx : mmuFindCtx c ctxNum with
  | none =>
    refine ⟨s, -(ENOMEM : Int), ?_, by decide, .of_mem rfl⟩
    rw [srmmuDoSmallMapping, if_neg hnum, hctx]
  | some lvl1 =>
    rcases hfails with h | h | ⟨lvl1', hctx', hlarge | ⟨k, hk, hnull, hbefore⟩⟩
    · exact absurd h hnum
    · rw [hctx] at h
      cases h
    · rw [hctx] at hctx'
      obtain rfl := Option.some.inj hctx'
      exact .of_mem hctx (mmuNeedLvl3Tbl_large hlarge) (by decide) rfl
    · rw [hctx] at hctx'
      obtain rfl := Option.some.inj hctx'
      have hfirst : s.answers.getD 0 0 = 0 := by
        cases k with
        | zero => exact hnull
        | succ k =>
          -- two requests, of which the first does not fail
          have hle := smallMapAsks_le s lvl1 va
          exact absurd ⟨lvl1, hctx, by omega, hbefore 0 (Nat.succ_pos k)⟩ hno
      obtain ⟨s', hneed, hmem⟩ := mmuNeedLvl3Tbl_first (Nat.zero_lt_of_lt hk) hfirst
      exact .of_mem hctx hneed (by decide) hmem

/-- One context, whose level 1 table at 1024 is empty, and what the allocator will answer. -/
def emptyTables (answers : List Nat) : Srmmu × MmuCtxs :=
  (⟨fun _ => 0, answers, [], []⟩, ⟨1, [(0, 1024)], []⟩)

theorem emptyTables_asks (answers : List Nat) :
    mmuFindCtx (emptyTables answers).2 0 = some 1024 ∧
      smallMapAsks (emptyTables answers).1 1024 0 = 2 := by
  have hentry : ∀ tbl i, (emptyTables answers).1.entry tbl i = 0 := fun _ _ => rfl
  refine ⟨rfl, ?_⟩
  simp [smallMapAsks, mmuFindTblLvl3, mmuFindTblLvl2, hentry, isPtEntry]

/-- Without any memory the failure is clean. -/
theorem srmmuDoSmallMapping_failed_iff_none :
    FailsClean (emptyTables []).1 (emptyTables []).2 0 0 0 0 ↔
      ¬ LeavesEmptyTbl (emptyTables []).1 (emptyTables []).2 0 0 :=
  srmmuDoSmallMapping_failed_iff _ _ 0 0 0 0 (fun _ ha => nomatch ha)
    (Or.inr (Or.inr ⟨1024, rfl, Or.inr ⟨0, by rw [(emptyTables_asks []).2]; decide, rfl,
      fun _ hj => absurd hj (Nat.not_lt_zero _)⟩⟩))

/-- With memory for one table, that table stays linked although the call has failed. -/
theorem srmmuDoSmallMapping_leaves : ¬ ∀ (s : Srmmu) (c : MmuCtxs) (ctxNum va pa perm : Nat),
    (∀ a ∈ s.answers, a + 512 ≤ 2 ^ 32) → SmallMapFails s c ctxNum va →
      FailsClean s c ctxNum va pa perm := by
  intro h
  obtain ⟨hctx, hasks⟩ := emptyTables_asks [4104]
  have hend : ∀ a ∈ (emptyTables [4104]).1.answers, a + 512 ≤ 2 ^ 32 := by decide
  have hfails : SmallMapFails (emptyTables [4104]).1 (emptyTables [4104]).2 0 0 :=
    Or.inr (Or.inr ⟨1024, hctx, Or.inr ⟨1, by rw [hasks]; decide, rfl, by decide⟩⟩)
  exact not_failsClean ⟨1024, hctx, hasks, by decide⟩ hfails hend
    (h _ _ 0 0 0 0 hend hfails)

end FlightOs
