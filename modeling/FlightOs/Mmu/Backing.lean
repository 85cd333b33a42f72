/-
# Pages behind the break

A page of the heap is taken from `page_alloc` when it is first touched, and given back when the
break goes below it.  Here the physical memory is `total` pages that back this heap only, and the
state of a run counts those that are taken, as `__mm_stat` does: `kernel_sbrk` sees what is free at
the time of the call.

* `HeapInv`: the pages that are taken are those that are mapped, and these lie below the highest
  break that physical memory covers.
* `heap_backed`: in every run whose breaks are all covered, a fault below the break finds a page.
* `heap_overcommitted`: two increments of a page each are accepted with one page of memory, since
  the first has not been touched when the second is asked for.

What `page_alloc` returns is part of a fault, and what it may return is `PageAnswer`.
-/
import FlightOs.Mmu.Contract
import Mathlib.Algebra.BigOperators.Intervals

namespace FlightOs

/-! ## 1. Tables that can be made -/

/-- The next two buffers that the allocator of the tables hands out are there; a mapping takes no
more. -/
def TablesFound : List Nat → Prop
  | a :: b :: _ => a ≠ 0 ∧ b ≠ 0
  | _ => False

instance : ∀ answers, Decidable (TablesFound answers)
  | [] => isFalse id
  | [_] => isFalse id
  | a :: b :: _ => inferInstanceAs (Decidable (a ≠ 0 ∧ b ≠ 0))

section Tables

variable {s s' : Srmmu} {lvl1 T va pa perm a : Nat} {as : List Nat} {ret : Int}

theorem Srmmu.answers_write (s : Srmmu) (a v : Nat) : (s.write a v).answers = s.answers := rfl

theorem mmuAllocTbl_answers (s : Srmmu) (n : Nat) : (mmuAllocTbl s n).1.answers = s.answers.tail := by
  unfold mmuAllocTbl Srmmu.alloc
  cases hans : s.answers with
  | nil => simp [hans]
  | cons a as =>
    simp only [List.tail_cons]
    split
    · rfl
    · split <;> rfl

/-- A buffer that is there makes a table. -/
theorem mmuAllocTbl_ne_zero (hans : s.answers = a :: as) (ha : a ≠ 0)
    (hok : AnswersOk lvl1 s.heap s.answers) : (mmuAllocTbl s 256).2 ≠ 0 := by
  rw [hans, AnswersOk, if_neg ha] at hok
  have hbound := hok.1.bound
  have hle := (walign_spec (x := a) (a := 256) (by norm_num) (by omega)).2.1
  simp only [mmuAllocTbl, Srmmu.alloc, hans, if_neg ha]
  split
  · exact fun e => ha (Nat.le_zero.mp (e ▸ hle))
  · exact fun e => ha (Nat.le_zero.mp (e ▸ hle))

theorem mmuMakeLvl3Tbl_ret {s₁ : Srmmu} {U : Nat} (halloc : mmuAllocTbl s 256 = (s₁, U))
    (hU : U ≠ 0) (h : mmuMakeLvl3Tbl s T va = .ok (s', ret)) : ret = 0 := by
  unfold mmuMakeLvl3Tbl at h
  rw [srmmuTblLvl3Align, halloc] at h
  simp only [if_neg hU] at h
  split at h
  · cases h
  · exact (Prod.mk.inj (Except.ok.inj h)).2.symm

/-- A table of level 2 where there is neither a table nor a large page: it takes one buffer. -/
theorem mmuNeedLvl2Tbl_new {s₁ : Srmmu} {U : Nat} (halloc : mmuAllocTbl s 256 = (s₁, U))
    (hU : U ≠ 0) (h0 : s.entry lvl1 (srmmuLvl1GetTblOffset va) = 0) :
    (mmuNeedLvl2Tbl s lvl1 va).2 = 0 ∧ (mmuNeedLvl2Tbl s lvl1 va).1.answers = s₁.answers := by
  have hpt : isPtEntry 0 = false := by decide
  have heq : mmuNeedLvl2Tbl s lvl1 va = ((mmuSetTblInvalid s₁ U srmmuSizeTblLvl2).write
      (entryAddr lvl1 (srmmuLvl1GetTblOffset va)) (srmmuPtd U), 0) := by
    unfold mmuNeedLvl2Tbl
    rw [srmmuTblLvl2Align, halloc]
    simp only [h0, hpt, Bool.false_eq_true, if_false, ne_eq, not_true, if_neg hU]
  rw [heq]
  refine ⟨rfl, ?_⟩
  rw [Srmmu.answers_write]
  exact (mmuSetTblInvalid_spec s₁ U srmmuSizeTblLvl2).2.2.2.2

/-- **A mapping whose tables can be made succeeds**, where there is no large page. -/
theorem Good.mapSmall_ret {ex : Prop} {A : PgTree} (h : Good ex s lvl1 A) (hva : va < 2 ^ 32)
    (hlarge : A.large (va / 2 ^ 24) = 0) (hok : AnswersOk lvl1 s.heap s.answers)
    (hun : Unaligned s.answers) (hfound : TablesFound s.answers)
    (hmap : FlightOs.mapSmall s lvl1 va pa perm = .ok (s', ret)) : ret = 0 := by
  obtain ⟨a, b, as, hans, ha, hb⟩ : ∃ a b as, s.answers = a :: b :: as ∧ a ≠ 0 ∧ b ≠ 0 := by
    match hl : s.answers with
    | [] => rw [hl] at hfound; exact hfound.elim
    | [_] => rw [hl] at hfound; exact hfound.elim
    | a :: b :: as => rw [hl] at hfound; exact ⟨a, b, as, rfl, hfound⟩
  have hne := mmuAllocTbl_ne_zero hans ha hok
  have hrest := mmuAllocTbl_answers s 256
  obtain ⟨s₀, T₀, halloc⟩ : ∃ s₀ T₀, mmuAllocTbl s 256 = (s₀, T₀) := ⟨_, _, rfl⟩
  rw [halloc] at hne hrest
  have hneed : ∀ s₁ r, mmuNeedLvl3Tbl s lvl1 va = .ok (s₁, r) → r = 0 := by
    intro s₁ r heq
    unfold mmuNeedLvl3Tbl at heq
    split at heq
    · exact (Prod.mk.inj (Except.ok.inj heq)).2.symm
    simp only at heq
    split at heq
    · exact mmuMakeLvl3Tbl_ret halloc hne heq
    · next h2 =>
      -- a table of level 2 comes first, and takes the first buffer
      have hnone : A.tbl (.lvl2 (va / 2 ^ 24)) = none := by
        rw [h.findTblLvl2 hva] at h2
        cases hT : A.tbl (.lvl2 (va / 2 ^ 24)) with
        | none => rfl
        | some T =>
          have := h.rep.bounds hT
          rw [hT, Option.getD_some] at h2
          omega
      have htop : A.top (va / 2 ^ 24) = 0 := by
        refine (h.shape.topNone _ (by omega) hnone).resolve_right (fun hpt => ?_)
        rw [PgTree.large, if_pos hpt] at hlarge
        exact ne_zero_of_isPtEntry hpt hlarge
      have h0 : s.entry lvl1 (srmmuLvl1GetTblOffset va) = 0 := by
        have hoff : srmmuLvl1GetTblOffset va = va / 2 ^ 24 := Nat.mod_eq_of_lt (by omega)
        rw [hoff, h.rep.entry_top (by omega), htop]
      obtain ⟨hret, hans₁⟩ := mmuNeedLvl2Tbl_new halloc hne h0
      rcases h.needLvl2Tbl hok hun hva hnone with ⟨hbad, -⟩ | ⟨-, s₂, U, heq₂, -, -, -, hok₂, -⟩
      · exact absurd hret hbad
      · rw [heq₂] at heq hans₁
        have hans₂ : s₂.answers = b :: as := hans₁.trans (hrest.trans (congrArg List.tail hans))
        obtain ⟨s₃, T₃, halloc₂⟩ : ∃ s₃ T₃, mmuAllocTbl s₂ 256 = (s₃, T₃) := ⟨_, _, rfl⟩
        have hne₂ := mmuAllocTbl_ne_zero hans₂ hb hok₂
        rw [halloc₂] at hne₂
        exact mmuMakeLvl3Tbl_ret halloc₂ hne₂ heq
  unfold FlightOs.mapSmall at hmap
  cases hn : mmuNeedLvl3Tbl s lvl1 va with
  | error e =>
    rw [hn] at hmap
    cases hmap
  | ok r =>
    obtain ⟨s₁, r⟩ := r
    obtain rfl := hneed s₁ r hn
    rw [hn] at hmap
    simp only [ne_eq, not_true, if_false] at hmap
    split at hmap
    · cases hmap
    · exact (Prod.mk.inj (Except.ok.inj hmap)).2.symm

end Tables

/-! ## 2. Counting pages -/

/-- The pages of the lower half of the virtual memory that are mapped. -/
def PgTree.mapped (A : PgTree) : Finset Nat := (Finset.range (2 ^ 17)).filter (fun p => A.page p ≠ 0)

theorem PgTree.card_mapped_le (A : PgTree) : A.mapped.card ≤ 2 ^ 17 := by
  have := Finset.card_filter_le (Finset.range (2 ^ 17)) (fun p => A.page p ≠ 0)
  rwa [Finset.card_range] at this

section Count

variable {α : Type} {A A' : PgTree} {c e : Nat}

theorem length_gather (G : Nat → List α) (lo hi : Nat) :
    (gather lo hi G).length = ∑ p ∈ Finset.Ico lo hi, (G p).length := by
  rcases Nat.le_total hi lo with hle | hle
  · rw [gather_of_le hle, Finset.Ico_eq_empty_of_le hle]
    rfl
  · induction hi, hle using Nat.le_induction with
    | base => simp [gather_of_le]
    | succ n hn ih =>
      rw [gather_split hn (Nat.le_succ n), List.length_append, ih, gather_succ (Nat.lt_succ_self n),
        gather_of_le (Nat.le_refl _), List.append_nil, Finset.sum_Ico_succ_top hn]

/-- What a walk below high memory gives back are the pages that it meets. -/
theorem PgTree.regionLog_eq (hlow : ∀ r < 32, A.large r = 0) (he : e ≤ 2 ^ 17) :
    gather (c / 4096) 256 (A.regionLog c e) =
      gather 0 (2 ^ 17) (fun p => if A.Visited c e p then A.smallLog p else []) := by
  obtain ⟨G, hG⟩ : ∃ G : Nat → List Nat, G = fun p => if A.Visited c e p then A.smallLog p else [] :=
    ⟨_, rfl⟩
  have hregion : ∀ r, A.regionLog c e r = gather (4096 * r) (4096 * (r + 1)) G := by
    intro r
    rw [PgTree.regionLog, hG]
    split
    · next hne =>
      have hr : ¬ r < 32 := fun h => hne (hlow r h)
      have hno : ¬ A.Reached c e r := by
        intro h
        have h2 : 4096 * r ≤ A.regionEntry c r := le_enter
        have := h.2
        omega
      rw [if_neg hno, gather_eq_nil]
      intro p h1 _
      refine if_neg (fun hv => ?_)
      have := (inRange_iff.mp hv.inRange).2
      omega
    · rfl
  have hbelow : ∀ r, r < c / 4096 → gather (4096 * r) (4096 * (r + 1)) G = [] := by
    intro r hr
    refine gather_eq_nil (fun p _ h2 => ?_)
    rw [hG]
    refine if_neg (fun hv => ?_)
    have := hv.1
    omega
  rw [← hG]
  calc gather (c / 4096) 256 (A.regionLog c e)
      = gather (c / 4096) 256 (fun r => gather (4096 * r) (4096 * (r + 1)) G) :=
        gather_congr (fun r _ _ => hregion r)
    _ = gather 0 256 (fun r => gather (4096 * r) (4096 * (r + 1)) G) :=
        (gather_drop (Nat.zero_le _) (fun r _ hr _ => hbelow r hr)).symm
    _ = gather 0 (4096 * 256) G := gather_blocks 4096 256
    _ = gather 0 (2 ^ 17) G := by
        refine gather_clip (Nat.le_refl 0) (by decide) (fun p _ _ hout => ?_)
        rw [hG]
        refine if_neg (fun hv => hout ⟨Nat.zero_le p, ?_⟩)
        exact (inRange_iff.mp hv.inRange).2.trans_le he

/-- **A release gives back as many pages as it unmaps.** -/
theorem Released.card_mapped {s s' : Srmmu} (h : Released s s' A A' c e)
    (hlow : ∀ r < 32, A.large r = 0) (he : e ≤ 2 ^ 17) :
    A'.mapped.card + (s'.pages.length - s.pages.length) = A.mapped.card := by
  have hlen : s'.pages.length - s.pages.length =
      (A.mapped.filter (fun p => A.Visited c e p)).card := by
    rw [h.pages, List.length_append, Nat.add_sub_cancel_left, PgTree.regionLog_eq hlow he,
      length_gather, PgTree.mapped, Finset.filter_filter, Finset.card_filter, ← Finset.range_eq_Ico]
    refine Finset.sum_congr rfl (fun p _ => ?_)
    by_cases hv : A.Visited c e p
    · by_cases h0 : A.page p = 0
      · simp [hv, h0, PgTree.smallLog_of_zero]
      · simp [hv, h0, PgTree.smallLog_of_ne]
    · simp [hv]
  have hkept : A'.mapped = A.mapped.filter (fun p => ¬ A.Visited c e p) := by
    ext p
    simp only [PgTree.mapped, Finset.mem_filter, and_assoc]
    refine and_congr_right (fun _ => ?_)
    by_cases hv : A.Visited c e p
    · simp [h.gone p hv, hv]
    · simp [h.page p hv, hv]
  rw [hlen, hkept, Nat.add_comm]
  exact Finset.card_filter_add_card_filter_not _

end Count

/-! ## 3. The system -/

/-- The page tables, the break, and the pages that are taken, `__mm_stat.used_blocks`. -/
structure BackedState where
  mmu : Srmmu
  sbrk : Nat
  used : Nat

inductive BackedOp
  | sbrk (increment : Nat)
  | fault (addr alloc : Nat) (answers : List Nat)

/-- What a call or a fault leads to, if it returns.  An increment that is refused is no step. -/
def BackedStep (C : MmuCtx) (total : Nat) (s : BackedState) : BackedOp → BackedState → Prop
  | .sbrk increment, s' => ∃ r fuel,
    kernelSbrk (kernelBounds s.sbrk) (mmFreeBytes ⟨total, s.used, 0⟩) increment = some r ∧
      mmReleaseMmuMapping fuel s.mmu C.ctxs C.num r.release = .ok s'.mmu ∧ s'.sbrk = r.sbrk ∧
      s'.used = wsub s.used (s'.mmu.pages.length - s.mmu.pages.length)
  | .fault addr alloc answers, s' =>
    pteAt s.mmu C.lvl1 (addr / 4096) = 0 ∧ PageAnswer total s.used alloc ∧
      AnswersOk C.lvl1 s.mmu.heap answers ∧ ∃ ret,
      mmMmuTrap { s.mmu with answers := answers } C.ctxs C.num (kernelBounds s.sbrk) addr alloc =
        .ok (s'.mmu, ret) ∧
      s'.sbrk = s.sbrk ∧ s'.used = wadd s.used 1

/-- A context whose heap has `total` pages of physical memory to itself. -/
def backedSystem (C : MmuCtx) (total : Nat) : System BackedState BackedOp where
  init s := s.sbrk = vmallocStart ∧ s.used = 0 ∧
    ∃ last, (srmmuSystem C).Reachable HighMapping ⟨s.mmu, last⟩
  step := BackedStep C total

/-- A fault whose tables can be made, and for which `page_alloc` finds a page where one is free. -/
def FaultServed (total used alloc : Nat) (answers : List Nat) : Prop :=
  TablesFound answers ∧ Unaligned answers ∧ (used < total → alloc ≠ 0)

instance (total used alloc : Nat) (answers : List Nat) :
    Decidable (FaultServed total used alloc answers) :=
  inferInstanceAs (Decidable (_ ∧ _ ∧ _))

def BackedOp.Served (total : Nat) (s : BackedState) : BackedOp → Prop
  | .sbrk _ => True
  | .fault _ alloc answers => FaultServed total s.used alloc answers

/-- The whole of the memory below the new break is there to back it. -/
def BackedOp.Covered (total : Nat) (s : BackedState) : BackedOp → Prop
  | .sbrk increment =>
    pageAlign (wadd s.sbrk (walign increment 8)) ≤ vmallocStart + 4096 * total
  | .fault _ alloc answers => FaultServed total s.used alloc answers

/-- The invariant of a run. -/
structure BackedInv (C : MmuCtx) (total : Nat) (s : BackedState) (A : PgTree) : Prop where
  good : Good True s.mmu C.lvl1 A
  low : ∀ r < 32, A.large r = 0
  range : vmallocStart ≤ s.sbrk ∧ s.sbrk ≤ vmallocEnd
  covered : pageAlign s.sbrk ≤ vmallocStart + 4096 * total
  used : s.used = A.mapped.card
  inside : ∀ p ∈ A.mapped, 4096 ≤ p ∧ p < 4096 + total

section Backed

variable {C : MmuCtx} {total addr alloc : Nat} {answers : List Nat} {s s' : BackedState}
  {A : PgTree}

theorem BackedInv.init (h : (backedSystem C total).init s) : ∃ A, BackedInv C total s A := by
  obtain ⟨hsbrk, hused, last, hreach⟩ := h
  obtain ⟨A, hA, hnone, hlow⟩ := HighMapping.tables hreach
  have hempty : A.mapped = ∅ := by
    refine Finset.filter_eq_empty_iff.mpr (fun p _ => ?_)
    exact not_not.mpr (PgTree.page_of_none (hnone _))
  refine ⟨A, hA, hlow, ?_, ?_, ?_, ?_⟩
  · rw [hsbrk]
    decide
  · have hal : pageAlign vmallocStart = vmallocStart := by decide
    rw [hsbrk, hal]
    exact Nat.le_add_right _ _
  · rw [hused, hempty]
    rfl
  · rw [hempty]
    exact fun p hp => absurd hp (Finset.notMem_empty p)

/-- **Below a covered break there is a page for every fault.** -/
theorem BackedInv.used_lt (I : BackedInv C total s A) (hlo : vmallocStart ≤ addr)
    (hhi : addr < s.sbrk) (h0 : A.page (addr / 4096) = 0) : s.used < total := by
  obtain ⟨q, hq, hq1, -⟩ := pageAlign_spec I.range.2
  have hcov := I.covered
  rw [hq] at hcov
  unfold vmallocStart at hlo hcov
  -- the page of the fault is one of those that memory covers, and is not mapped
  have hsub : A.mapped ⊆ (Finset.Ico 4096 (4096 + total)).erase (addr / 4096) := by
    intro p hp
    rw [Finset.mem_erase, Finset.mem_Ico]
    refine ⟨?_, I.inside p hp⟩
    rintro rfl
    exact (Finset.mem_filter.mp hp).2 h0
  have hmem : addr / 4096 ∈ Finset.Ico 4096 (4096 + total) := by
    rw [Finset.mem_Ico]
    omega
  have hcard := Finset.card_le_card hsub
  rw [Finset.card_erase_of_mem hmem, Nat.card_Ico, Nat.add_sub_cancel_left, ← I.used] at hcard
  omega

/-- A trap that is served maps the page, and no other. -/
theorem BackedInv.trap (I : BackedInv C total s A) (hlo : vmallocStart ≤ addr)
    (hhi : addr < s.sbrk) (hpte : pteAt s.mmu C.lvl1 (addr / 4096) = 0) (halloc : alloc ≠ 0)
    (hok : AnswersOk C.lvl1 s.mmu.heap answers) (hfound : TablesFound answers)
    (hun : Unaligned answers) :
    ∃ m A', mmMmuTrap { s.mmu with answers := answers } C.ctxs C.num (kernelBounds s.sbrk) addr
        alloc = .ok (m, 0) ∧ Good True m C.lvl1 A' ∧ m.pages = s.mmu.pages ∧
      (∀ r, A'.large r = A.large r) ∧
      ∀ p, A'.page p = if p = addr / 4096 then srmmuPte alloc faultPerm else A.page p := by
  have hend := I.range.2
  unfold vmallocEnd at hend
  have hva : addr < 2 ^ 32 := by omega
  have hp20 : addr / 4096 < 2 ^ 20 := by omega
  have h' : Good True { s.mmu with answers := answers } C.lvl1 A :=
    ⟨I.good.rep.congr rfl rfl, I.good.shape, I.good.counted,
      fun hx => (I.good.owned hx).congr rfl (fun _ _ hk => hk)⟩
  have hroom : ∀ U, A.tbl (.lvl3 (addr / 2 ^ 18)) = some U →
      A.cnt (.lvl3 (addr / 2 ^ 18)) + 1 < 2 ^ 32 := by
    intro U hU
    have := (I.good.shape.cnt3 _ U hU).2.2 trivial
    have := usedOf_le (A.ent (.lvl3 (addr / 2 ^ 18)))
    omega
  have h0 : A.page (addr / 4096) = 0 := by
    rw [← I.good.pteAt_eq hp20]
    exact hpte
  obtain ⟨m, ret, A', hmap, hgood, hpages, hlarge, hpage⟩ :=
    h'.mapSmall alloc faultPerm hok hun hva hroom (fun _ => h0)
  obtain rfl : ret = 0 := h'.mapSmall_ret hva (I.low _ (by omega)) hok hun hfound hmap
  refine ⟨m, A', ?_, hgood, hpages, hlarge, fun p => ?_⟩
  · have hne : addr ≠ 0 := by
      unfold vmallocStart at hlo
      omega
    have hhigh : ¬ highmemStart < addr := by
      unfold highmemStart
      omega
    have hlow : ¬ addr < (kernelBounds s.sbrk).addrLo := not_lt.mpr hlo
    have hbrk : addr < (kernelBounds s.sbrk).sbrk := hhi
    unfold mmMmuTrap
    rw [if_neg hne, if_neg hlow, if_neg hhigh, if_pos hbrk, if_neg halloc, C.smallMapping]
    exact hmap
  · rw [hpage]
    simp only [true_and]
    rfl

/-- **A fault that is served** takes a page and maps it. -/
theorem BackedInv.fault (I : BackedInv C total s A)
    (hcov : (BackedOp.fault addr alloc answers).Covered total s)
    (hstep : BackedStep C total s (.fault addr alloc answers) s') :
    ∃ A', BackedInv C total s' A' := by
  obtain ⟨hpte, hpage, hok, ret, htrap, hsbrk, hused⟩ := hstep
  obtain ⟨hfound, hun, -⟩ := hcov
  have hlo : vmallocStart ≤ addr := by
    unfold mmMmuTrap at htrap
    split_ifs at htrap with h1 h2
    exact not_lt.mp h2
  obtain ⟨-, hhi', halloc, -⟩ := mmMmuTrap_ok htrap
  have hhi : addr < s.sbrk := hhi'
  obtain ⟨m, A', htrap', hgood, -, hlarge, hmap⟩ := I.trap hlo hhi hpte halloc hok hfound hun
  obtain ⟨rfl, rfl⟩ : m = s'.mmu ∧ ret = 0 := by
    have heq := Except.ok.inj (htrap'.symm.trans htrap)
    exact ⟨congrArg Prod.fst heq, (congrArg Prod.snd heq).symm⟩
  have hend := I.range.2
  unfold vmallocEnd at hend
  have h0 : A.page (addr / 4096) = 0 := by
    rw [← I.good.pteAt_eq (by omega)]
    exact hpte
  have hlt := I.used_lt hlo hhi h0
  have hmapped : A'.mapped = insert (addr / 4096) A.mapped := by
    ext p
    simp only [PgTree.mapped, Finset.mem_insert, Finset.mem_filter, Finset.mem_range, hmap]
    by_cases hp : p = addr / 4096
    · have hne := ne_zero_of_isPtEntry (isPtEntry_srmmuPte alloc faultPerm)
      simp only [hp, if_true, true_or, iff_true]
      exact ⟨by omega, hne⟩
    · simp [hp]
  have hnot : addr / 4096 ∉ A.mapped := fun h => (Finset.mem_filter.mp h).2 h0
  have hle := A.card_mapped_le
  obtain ⟨q, hq, hq1, -⟩ := pageAlign_spec I.range.2
  have hcov := I.covered
  refine ⟨A', hgood, fun r hr => (hlarge r).trans (I.low r hr), hsbrk ▸ I.range,
    hsbrk ▸ I.covered, ?_, fun p hp => ?_⟩
  · rw [hused, hmapped, Finset.card_insert_of_notMem hnot, ← I.used, wadd_of_lt]
    have := I.used
    omega
  · rw [hmapped, Finset.mem_insert] at hp
    rcases hp with rfl | hp
    · rw [hq] at hcov
      unfold vmallocStart at hlo hcov
      omega
    · exact I.inside p hp

/-- **An accepted increment** to a covered break. -/
theorem BackedInv.sbrk {increment : Nat} (I : BackedInv C total s A)
    (hcov : (BackedOp.sbrk increment).Covered total s)
    (hstep : BackedStep C total s (.sbrk increment) s') : ∃ A', BackedInv C total s' A' := by
  obtain ⟨r, fuel, hr, hrel, hsbrk, hused⟩ := hstep
  obtain ⟨hnew, hlo, hhi, hrelease⟩ := kernelSbrk_spec I.range.2 I.range.1 hr
  have hcov' : pageAlign r.sbrk ≤ vmallocStart + 4096 * total := by
    rw [hnew]
    exact hcov
  have hle := A.card_mapped_le
  have hIu := I.used
  obtain ⟨x, hx, hx1, hx2⟩ := pageAlign_spec hhi
  obtain ⟨y, hy, hy1, hy2⟩ := pageAlign_spec I.range.2
  have hend := I.range.2
  unfold vmallocEnd at hend
  rw [hx, hy] at hrelease
  by_cases hcross : 4096 * x + 4096 < 4096 * y
  · rw [hrelease, if_pos hcross] at hrel
    have hmmu : (srmmuSystem C).step ⟨s.mmu, fun _ => 0⟩ (.release (4096 * x) (4096 * y))
        ⟨s'.mmu, fun p => if InRange (4096 * x) (4096 * y) p then 0 else 0⟩ :=
      ⟨⟨Nat.dvd_mul_right _ _, by omega, Nat.dvd_mul_right _ _, by omega⟩, fuel, hrel, rfl⟩
    obtain ⟨A', hA', hR, -⟩ := I.good.release hmmu
    rw [Nat.mul_div_cancel_left x (by norm_num), Nat.mul_div_cancel_left y (by norm_num)] at hR
    have hcard : A'.mapped.card + (s'.mmu.pages.length - s.mmu.pages.length) = A.mapped.card :=
      hR.card_mapped I.low (by omega)
    refine ⟨A', hA', fun r hr32 => ?_, ?_, hsbrk ▸ hcov', ?_, fun p hp => ?_⟩
    · rw [hR.large r (by omega), I.low r hr32, ite_self]
    · rw [hsbrk]
      exact ⟨hlo, hhi⟩
    · rw [hused, wsub_of_le (by omega) (by omega)]
      omega
    · refine I.inside p ?_
      obtain ⟨hp1, hp2⟩ := Finset.mem_filter.mp hp
      refine Finset.mem_filter.mpr ⟨hp1, fun h0 => hp2 ?_⟩
      by_cases hv : A.Visited x y p
      · exact hR.gone p hv
      · rw [hR.page p hv, h0]
  · rw [hrelease, if_neg hcross] at hrel
    have hsame : s.mmu = s'.mmu := Except.ok.inj hrel
    refine ⟨A, hsame ▸ I.good, I.low, ?_, hsbrk ▸ hcov', ?_, I.inside⟩
    · rw [hsbrk]
      exact ⟨hlo, hhi⟩
    · rw [hused, ← hsame, Nat.sub_self, wsub_of_le (by omega) (Nat.zero_le _)]
      exact I.used

theorem BackedInv.of_reachable (h : (backedSystem C total).Reachable (BackedOp.Covered total) s) :
    ∃ A, BackedInv C total s A := by
  refine h.invariant (I := fun s => ∃ A, BackedInv C total s A) (fun s hs => BackedInv.init hs) ?_
  rintro s o s' ⟨A, I⟩ hok hstep
  cases o with
  | sbrk increment => exact I.sbrk hok hstep
  | fault addr alloc answers => exact I.fault hok hstep

/-- **A page for every fault.**  In every run whose accepted increments keep the break within what
memory can back, a fault below the break finds a page and maps it, and nothing else. -/
theorem heap_backed (h : (backedSystem C total).Reachable (BackedOp.Covered total) s)
    (hlo : vmallocStart ≤ addr) (hhi : addr < s.sbrk)
    (hpte : pteAt s.mmu C.lvl1 (addr / 4096) = 0)
    (hok : AnswersOk C.lvl1 s.mmu.heap answers)
    (hserved : FaultServed total s.used alloc answers) :
    s.used < total ∧ ∃ m,
      mmMmuTrap { s.mmu with answers := answers } C.ctxs C.num (kernelBounds s.sbrk) addr alloc =
        .ok (m, 0) ∧
      ∀ p < 2 ^ 20, pteAt m C.lvl1 p =
        if p = addr / 4096 then srmmuPte alloc faultPerm else pteAt s.mmu C.lvl1 p := by
  obtain ⟨A, I⟩ := BackedInv.of_reachable h
  obtain ⟨hfound, hun, hfree⟩ := hserved
  have hend := I.range.2
  unfold vmallocEnd at hend
  have hlt : s.used < total := by
    refine I.used_lt hlo hhi ?_
    rw [← I.good.pteAt_eq (by omega)]
    exact hpte
  obtain ⟨m, A', htrap, hgood, -, -, hmap⟩ := I.trap hlo hhi hpte (hfree hlt) hok hfound hun
  refine ⟨hlt, m, htrap, fun p hp => ?_⟩
  rw [hgood.pteAt_eq hp, I.good.pteAt_eq hp]
  exact hmap p

end Backed

/-! ## 4. One page of memory -/

/-- Nothing is mapped, and the break is at `brk`. -/
def untouched (brk : Nat) : BackedState := ⟨emptyMmu.mmu, brk, 0⟩

theorem untouched_init (total : Nat) : (backedSystem emptyCtx total).init (untouched vmallocStart) :=
  ⟨rfl, rfl, fun _ => 0, .init emptyMmu_init⟩

/-- An increment by a page while nothing is mapped: all of the memory is free. -/
theorem untouched_grows {brk brk' : Nat}
    (h : kernelSbrk (kernelBounds brk) (mmFreeBytes ⟨1, 0, 0⟩) 0x1000 = some ⟨brk, brk', none⟩) :
    (backedSystem emptyCtx 1).step (untouched brk) (.sbrk 0x1000) (untouched brk') := by
  refine ⟨_, 0, h, rfl, rfl, ?_⟩
  show 0 = wsub 0 (emptyMmu.mmu.pages.length - emptyMmu.mmu.pages.length)
  rw [Nat.sub_self]
  rfl

theorem heap_backed_onePage : (untouched 0x01001000).used < 1 ∧ ∃ m,
    mmMmuTrap { emptyMmu.mmu with answers := [0x20008, 0x30008] } emptyCtx.ctxs emptyCtx.num
      (kernelBounds 0x01001000) 0x01000000 0x40000000 = .ok (m, 0) ∧
    ∀ p < 2 ^ 20, pteAt m emptyCtx.lvl1 p =
      if p = 0x01000000 / 4096 then srmmuPte 0x40000000 faultPerm
      else pteAt emptyMmu.mmu emptyCtx.lvl1 p := by
  have hreach : (backedSystem emptyCtx 1).Reachable (BackedOp.Covered 1) (untouched 0x01001000) :=
    .step (.init (untouched_init 1)) (by
      show pageAlign _ ≤ _
      decide) (untouched_grows (by decide))
  refine heap_backed (s := untouched 0x01001000) hreach (by decide) (by decide) (by decide)
    ?_ (by decide)
  exact ⟨⟨by decide, by decide, by decide, by simp [untouched, emptyMmu], by decide⟩,
    ⟨by decide, by decide, by decide, by simp [untouched, emptyMmu], by decide⟩, trivial⟩

/-- The state that a page fault leads to, where it returns. -/
def BackedState.touched (C : MmuCtx) (s : BackedState) (addr alloc : Nat) (answers : List Nat) :
    BackedState :=
  match mmMmuTrap { s.mmu with answers := answers } C.ctxs C.num (kernelBounds s.sbrk) addr alloc with
  | .ok (m, _) => ⟨m, s.sbrk, wadd s.used 1⟩
  | .error _ => s

theorem BackedState.touched_step {C : MmuCtx} {total : Nat} {s : BackedState} {addr alloc : Nat}
    {answers : List Nat} (hpte : pteAt s.mmu C.lvl1 (addr / 4096) = 0)
    (hpage : PageAnswer total s.used alloc) (hans : AnswersOk C.lvl1 s.mmu.heap answers)
    (hok : (mmMmuTrap { s.mmu with answers := answers } C.ctxs C.num (kernelBounds s.sbrk) addr
      alloc).isOk = true) :
    (backedSystem C total).step s (.fault addr alloc answers) (s.touched C addr alloc answers) := by
  refine ⟨hpte, hpage, hans, ?_⟩
  unfold touched
  cases hres : mmMmuTrap { s.mmu with answers := answers } C.ctxs C.num (kernelBounds s.sbrk) addr
      alloc with
  | error e =>
    rw [hres] at hok
    cases hok
  | ok x => exact ⟨x.2, rfl, rfl, rfl⟩

/-- Two pages are granted with one page of memory, and the second that is touched hits the `BUG` of
`mm_mmu_trap`: nothing else has taken memory, and every fault before it was served. -/
theorem heap_overcommitted : ¬ ∀ s, (backedSystem emptyCtx 1).Reachable (BackedOp.Served 1) s →
    ∀ addr alloc answers, vmallocStart ≤ addr → addr < s.sbrk →
      pteAt s.mmu emptyCtx.lvl1 (addr / 4096) = 0 → PageAnswer 1 s.used alloc →
      AnswersOk emptyCtx.lvl1 s.mmu.heap answers → FaultServed 1 s.used alloc answers →
      ∃ m, mmMmuTrap { s.mmu with answers := answers } emptyCtx.ctxs emptyCtx.num
        (kernelBounds s.sbrk) addr alloc = .ok (m, 0) := by
  intro hall
  have hsbrk : ∀ s n, BackedOp.Served 1 s (.sbrk n) := fun _ _ => trivial
  have hgrown : (backedSystem emptyCtx 1).Reachable (BackedOp.Served 1) (untouched 0x01002000) :=
    .step (.step (.init (untouched_init 1)) (hsbrk _ _)
      (untouched_grows (show kernelSbrk _ _ _ = some ⟨_, 0x01001000, _⟩ by decide)))
      (hsbrk _ _) (untouched_grows (by decide))
  have hanswers : AnswersOk emptyCtx.lvl1 (untouched 0x01002000).mmu.heap [0x20008, 0x30008] :=
    ⟨⟨by decide, by decide, by decide, by simp [untouched, emptyMmu], by decide⟩,
      ⟨by decide, by decide, by decide, by simp [untouched, emptyMmu], by decide⟩, trivial⟩
  have htouched := hgrown.step
    (show BackedOp.Served 1 _ (.fault 0x01000000 0x40000000 [0x20008, 0x30008]) by
      show FaultServed _ _ _ _
      decide)
    (BackedState.touched_step (by decide +kernel) (.inr (by decide)) hanswers (by decide +kernel))
  have hheap : ((untouched 0x01002000).touched emptyCtx 0x01000000 0x40000000
      [0x20008, 0x30008]).mmu.heap = [(0x30008, 512), (0x20008, 512)] := by
    decide +kernel
  have hanswers₂ : AnswersOk emptyCtx.lvl1 [(0x30008, 512), (0x20008, 512)] [0x40008, 0x50008] :=
    ⟨⟨by decide, by decide, by decide, by decide, by decide⟩,
      ⟨by decide, by decide, by decide, by decide, by decide⟩, trivial⟩
  -- the page of the second fault is not there
  obtain ⟨m, hm⟩ := hall _ htouched 0x01001000 0 [0x40008, 0x50008] (by decide) (by decide +kernel)
    (by decide +kernel) (.inl rfl) (hheap ▸ hanswers₂) (by decide +kernel)
  have hbug := mmMmuTrap_ok hm
  exact hbug.2.2.1 rfl

end FlightOs
