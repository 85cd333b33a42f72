/-
# The buddy pool over whole runs: its bookkeeping

The order array is what `mm_free` goes by, so what it holds between the blocks matters: an entry
that is left inside a block makes a stray address look like a block.

* `MmTidy`: the array holds the orders of the live and of the free blocks and zero elsewhere.
* `mmSystem_tidy`: it is tidy as long as no free meets a free buddy below the released block,
  and the first one that does leaves an entry behind.
* `mmSystem_stray_free`: in a tidy pool a free of anything but a live block is without effect,
  unless the address lies strictly inside the first minimum block of a live one.
* `mmSystem_coalesces`: when every block has been released, the pool is as `mm_init` left it.

The entry that stays behind is that of the upper block of a merge whose upper block is the one
being released (`mm_merge_blk` loses its address when it exchanges the two pointers).
`mmSystem_stale_order`, `mmSystem_double_free` and `mmSystem_residue` show it on a pool of four
blocks: as an entry that nothing owns, as a second free that is accepted, and as a pool that is
not as it was.
-/
import FlightOs.Mm.Safety

namespace FlightOs

/-! ## 1. Tidy pools -/

/-- The order array holds the order of every live and of every free block at its first minimum
block, and zero at every other index. -/
structure MmTidy (s : MmState) : Prop where
  recorded : ∀ i < s.mm.pool.nBlks, s.mm.pool.allocOrder i ≠ 0 ↔
    ∃ b, (b ∈ s.liveBlks ∨ MmFreeBlk s.mm.pool b) ∧ b.off = i * 2 ^ s.mm.pool.minOrder
  orders : ∀ b, (b ∈ s.liveBlks ∨ MmFreeBlk s.mm.pool b) → ∀ i,
    b.off = i * 2 ^ s.mm.pool.minOrder → s.mm.pool.allocOrder i = b.ord
  inner : ∀ b, (b ∈ s.liveBlks ∨ MmFreeBlk s.mm.pool b) → ∀ i,
    b.off < i * 2 ^ s.mm.pool.minOrder → i * 2 ^ s.mm.pool.minOrder < b.stop →
      s.mm.pool.allocOrder i = 0

namespace MmRun

variable {A : MmArea} {s : MmState} {F : Finset Blk}

/-- The order recorded at the first minimum block of a block. -/
theorem order_at (h : MmRun A s F) {b : Blk} (hb : b ∈ s.liveBlks ∨ b ∈ F) {i : Nat}
    (hi : b.off = i * 2 ^ s.mm.pool.minOrder) : s.mm.pool.allocOrder i = b.ord := by
  rw [← (off_eq_mul_iff (h.inv.off_dvd hb)).mp hi]
  exact hb.elim (h.inv.live b) (h.inv.orders b)

/-- In terms of the invariant, a pool is tidy if its order array is clean. -/
theorem tidy_iff (h : MmRun A s F) : MmTidy s ↔ MmClean s.mm.pool s.liveBlks F := by
  constructor
  · intro ht i hi hi0
    obtain ⟨b, hb, hbo⟩ := (ht.recorded i hi).mp hi0
    exact ⟨b, hb.imp_right h.inv.mmFreeBlk_iff.mp, hbo⟩
  · intro hclean
    refine ⟨fun i hi => ⟨fun hi0 => ?_, ?_⟩, fun b hb i hi => ?_, fun b hb i h1 h2 => ?_⟩
    · obtain ⟨b, hb, hbo⟩ := hclean i hi hi0
      exact ⟨b, hb.imp_right h.inv.mmFreeBlk_iff.mpr, hbo⟩
    · rintro ⟨b, hb, hbo⟩
      have hb' := hb.imp_right h.inv.mmFreeBlk_iff.mp
      have := h.inv.minOrder_le b hb'
      have := h.inv.geom.minOrder_ge
      rw [h.order_at hb' hbo]
      omega
    · exact h.order_at (hb.imp_right h.inv.mmFreeBlk_iff.mp) hi
    · -- a block that starts strictly inside another one would overlap it
      have hb' := hb.imp_right h.inv.mmFreeBlk_iff.mp
      by_contra hi0
      have hilt : i < s.mm.pool.nBlks := by
        have hstop := h.inv.tiling.stop_le hb'
        rw [← h.inv.geom.nBlks_mul] at hstop
        exact lt_of_mul_lt_mul_right (h2.trans_le hstop) (Nat.zero_le _)
      obtain ⟨c, hc, hco⟩ := hclean i hilt hi0
      have hbc : b = c := h.inv.tiling.unique b hb' c hc (i * 2 ^ s.mm.pool.minOrder)
        ⟨h1.le, h2⟩ ⟨hco.le, hco ▸ c.off_lt_stop⟩
      subst hbc
      omega

end MmRun

/-! ## 2. Which frees keep a pool tidy -/

/-- Any request, and frees of live blocks that meet no free buddy below. -/
def MmUpwardFrees (s : MmState) : MmOp → Prop
  | .alloc _ => True
  | .free addr => s.IsLive addr ∧ mmFreeMergesBelow s.mm.pool addr = false

/-- The address lies strictly inside the first minimum block of a live block. -/
def MmState.InFirst (s : MmState) (addr : Nat) : Prop :=
  ∃ e ∈ s.live, e.1 < addr ∧ addr < e.1 + 2 ^ s.mm.pool.minOrder

/-- Any request, frees of live blocks that meet no free buddy below, and frees of other
addresses, less those inside the first minimum block of a live block. -/
def MmStrayFrees (s : MmState) : MmOp → Prop
  | .alloc _ => True
  | .free addr => (s.IsLive addr ∧ mmFreeMergesBelow s.mm.pool addr = false) ∨
      (¬ s.IsLive addr ∧ ¬ s.InFirst addr)

section Stray

variable {mm : Mm} {L F : Finset Blk}

/-- The upward merge does not touch the count of allocated blocks, whatever it is handed. -/
theorem mmMergeBlk_consts (mp : MmPool) (blk order : Nat) :
    (mmMergeBlk mp blk order).1.allocBlks = mp.allocBlks ∧
      (mmMergeBlk mp blk order).1.minOrder = mp.minOrder := by
  unfold mmMergeBlk
  dsimp only
  split
  · exact ⟨rfl, rfl⟩
  split
  · exact ⟨rfl, rfl⟩
  split
  · exact ⟨rfl, rfl⟩
  · exact ⟨rfl, rfl⟩

theorem mmUpmergeLoop_consts : ∀ (n : Nat) (mp : MmPool) (blk order : Nat),
    (mmUpmergeLoop n mp blk order).1.allocBlks = mp.allocBlks ∧
      (mmUpmergeLoop n mp blk order).1.minOrder = mp.minOrder
  | 0, _, _, _ => ⟨rfl, rfl⟩
  | n + 1, mp, blk, order => by
    have hm := mmMergeBlk_consts mp blk order
    rw [mmUpmergeLoop]
    cases hr : mmMergeBlk mp blk order with
    | mk mp' t =>
      rw [hr] at hm
      cases t with
      | none => exact hm
      | some tmp =>
        have ih := mmUpmergeLoop_consts n mp' tmp (order + 1)
        exact ⟨ih.1.trans hm.1, ih.2.trans hm.2⟩

theorem mmUpmergeBlks_consts (mp : MmPool) (blk : Nat) :
    (mmUpmergeBlks mp blk).allocBlks = mp.allocBlks ∧
      (mmUpmergeBlks mp blk).minOrder = mp.minOrder := by
  have h := mmUpmergeLoop_consts (mp.maxOrder - mmBlkGetAllocOrder mp blk) mp blk
    (mmBlkGetAllocOrder mp blk)
  rw [mmUpmergeBlks]
  simp only [mmLinkFree]
  split <;> exact h

/-- **A stray free of a clean pool has no effect**, away from the first minimum blocks of the
live blocks. -/
theorem mmFree_stray (h : MmInv mm.pool L F) (hclean : MmClean mm.pool L F) {a : Nat}
    (ha : ∀ b ∈ L, a < mm.pool.base + b.off ∨ mm.pool.base + b.off + 2 ^ mm.pool.minOrder ≤ a) :
    mmFree mm a = mm := by
  rw [mmFree]
  split
  · rfl
  split
  · rfl
  · next h0 hv =>
    have hvalid : mmBlkAddrValid mm.pool a = true := by simpa using hv
    obtain ⟨hle, hlt⟩ := (mmBlkAddrValid_iff h.geom).mp hvalid
    obtain ⟨o, rfl⟩ := Nat.exists_eq_add_of_le hle
    have ho : o < 2 ^ mm.pool.maxOrder := by omega
    have hidx := mmBlkIdx_eq h.geom ho
    have hilt : o / 2 ^ mm.pool.minOrder < mm.pool.nBlks := by
      rw [Nat.div_lt_iff_lt_mul (Nat.two_pow_pos _), h.geom.nBlks_mul]
      exact ho
    split
    · rfl
    · next hnf =>
      -- neither a free block nor a live one starts at the index, so its entry is zero
      have hzero : mmBlkGetAllocOrder mm.pool (mm.pool.base + o) = 0 := by
        rw [mmBlkGetAllocOrder, hidx]
        by_contra hne
        obtain ⟨b, hb, hbo⟩ := hclean _ hilt hne
        rcases hb with hbL | hbF
        · have h1 := Nat.div_add_mod o (2 ^ mm.pool.minOrder)
          have h2 := Nat.mod_lt o (Nat.two_pow_pos mm.pool.minOrder)
          rw [Nat.mul_comm] at h1
          have := ha b hbL
          omega
        · rw [mmBlkFree, hidx] at hnf
          exact hnf ((h.bits _ hilt).mpr ⟨b, hbF, hbo⟩)
      simp only [hzero, if_pos]

/-- A free inside the first minimum block of a live block is taken for a free of that block. -/
theorem mmFree_inFirst (h : MmInv mm.pool L F) {b : Blk} (hb : b ∈ L) {a : Nat}
    (h1 : mm.pool.base + b.off ≤ a) (h2 : a < mm.pool.base + b.off + 2 ^ mm.pool.minOrder) :
    (mmFree mm a).pool ≠ mm.pool := by
  have hmin := h.minOrder_le b (Or.inl hb)
  have hmin3 := h.geom.minOrder_ge
  have hle := h.ord_le (Or.inl hb)
  have hmax := h.geom.maxOrder_lt
  have hpos := h.geom.base_pos
  have hstop := h.stop_le (Or.inl hb)
  have hpow : 2 ^ mm.pool.minOrder ≤ 2 ^ b.ord := Nat.pow_le_pow_right (by norm_num) hmin
  obtain ⟨o, rfl⟩ := Nat.exists_eq_add_of_le (show mm.pool.base ≤ a by omega)
  have ho : o < 2 ^ mm.pool.maxOrder := by omega
  have hdiv : o / 2 ^ mm.pool.minOrder = b.off / 2 ^ mm.pool.minOrder :=
    (off_div_eq_iff (h.off_dvd (Or.inl hb))).mpr (by omega)
  have hidx : mmBlkIdx mm.pool (mm.pool.base + o) = mmBlkIdx mm.pool (mm.pool.base + b.off) := by
    rw [mmBlkIdx_eq h.geom ho, hdiv, h.idx_eq (Or.inl hb)]
  have hord : mmBlkGetAllocOrder mm.pool (mm.pool.base + o) = b.ord := by
    rw [mmBlkGetAllocOrder, hidx]
    exact h.getAllocOrder hb
  have hfree : mmBlkFree mm.pool (mm.pool.base + o) = false := by
    rw [mmBlkFree, hidx, Bool.eq_false_iff]
    exact (h.free_iff (Or.inl hb)).not.mpr (h.disj b hb)
  have hvalid : mmBlkAddrValid mm.pool (mm.pool.base + o) = true :=
    (mmBlkAddrValid_iff h.geom).mpr ⟨Nat.le_add_right _ _, by omega⟩
  have hfix : mmFixupValidate mm.pool (mm.pool.base + o) b.ord = b.ord :=
    mmFixupValidate_of_mem h.geom hmin hle (Nat.le_add_right _ _) (by omega)
  obtain ⟨halloc, hminO⟩ := mmUpmergeBlks_consts mm.pool (mm.pool.base + o)
  have hres : (mmFree mm (mm.pool.base + o)).pool.allocBlks =
      wsub mm.pool.allocBlks (2 ^ (b.ord - mm.pool.minOrder)) := by
    rw [mmFree, if_neg (by omega), if_neg (by simp [hvalid]), if_neg (by simp [hfree])]
    simp only [hord, hfix]
    rw [if_neg (by omega), if_neg (by simp [isErrValue_of_lt (k := b.ord) (by omega)])]
    rw [halloc, hminO, wshl_one (by omega)]
  intro heq
  rw [heq] at hres
  have hsum := h.sum_blks
  have hn : mm.pool.nBlks < 2 ^ 32 := by
    rw [h.geom.nBlks]
    exact Nat.pow_lt_pow_right (by norm_num) (by omega)
  have hp32 : 2 ^ (b.ord - mm.pool.minOrder) < 2 ^ 32 :=
    Nat.pow_lt_pow_right (by norm_num) (by omega)
  have hp0 := Nat.two_pow_pos (b.ord - mm.pool.minOrder)
  have halc := h.alloc
  unfold wsub at hres
  omega

end Stray

namespace MmRun

variable {A : MmArea} {s : MmState} {F : Finset Blk}

/-- Where a stray address lies, in terms of the live blocks. -/
theorem stray_iff (h : MmRun A s F) {a : Nat} (ha : ¬ s.IsLive a) :
    (∀ b ∈ s.liveBlks, a < s.mm.pool.base + b.off ∨
      s.mm.pool.base + b.off + 2 ^ s.mm.pool.minOrder ≤ a) ↔ ¬ s.InFirst a := by
  constructor
  · rintro hb ⟨e, he, h1, h2⟩
    obtain ⟨hbL, hba⟩ := h.mem_live he
    have := hb _ hbL
    omega
  · intro hnot b hb
    obtain ⟨e, he, rfl⟩ := MmState.mem_liveBlks.mp hb
    rw [(h.mem_live he).2]
    by_contra hcon
    refine hnot ⟨e, he, ?_, by omega⟩
    have hne : e.1 ≠ a := fun e' => ha ⟨e, he, e'⟩
    omega

/-- **A stray free**, in a tidy pool. -/
theorem stray_free_iff (h : MmRun A s F) (hclean : MmClean s.mm.pool s.liveBlks F) {a : Nat}
    (ha : ¬ s.IsLive a) : (mmFree s.mm a).pool = s.mm.pool ↔ ¬ s.InFirst a := by
  constructor
  · rintro heq ⟨e, he, h1, h2⟩
    obtain ⟨hbL, hba⟩ := h.mem_live he
    exact mmFree_inFirst h.inv hbL (by omega) (by omega) heq
  · intro hnot
    rw [mmFree_stray h.inv hclean ((h.stray_iff ha).mpr hnot)]

/-- **One call of a run without stray entries.** -/
theorem step_clean (h : MmRun A s F) (hclean : MmClean s.mm.pool s.liveBlks F) {o : MmOp}
    (hok : MmStrayFrees s o) :
    ∃ F', MmRun A (mmStep s o) F' ∧
      MmClean (mmStep s o).mm.pool (mmStep s o).liveBlks F' := by
  cases o with
  | alloc size =>
    obtain ⟨F', hrun, hcl⟩ := h.alloc size
    exact ⟨F', hrun, hcl hclean⟩
  | free addr =>
    rcases hok with ⟨hlive, hup⟩ | ⟨hstray, hnot⟩
    · obtain ⟨F', hrun, hcl⟩ := h.free hlive
      exact ⟨F', hrun, hcl.mpr ⟨hclean, hup⟩⟩
    · -- neither the pool nor the callers' list changes
      have hsame : mmStep s (.free addr) = s := by
        have hlist : s.live.filter (fun e => e.1 ≠ addr) = s.live := by
          rw [List.filter_eq_self]
          intro e he
          simpa using fun e' => hstray ⟨e, he, e'⟩
        rw [mmStep, hlist, mmFree_stray h.inv hclean ((h.stray_iff hstray).mpr hnot)]
      rw [hsame]
      exact ⟨F, h, hclean⟩

theorem of_reachable_stray (h : (mmSystem A).Reachable MmStrayFrees s) :
    ∃ F, MmRun A s F ∧ MmClean s.mm.pool s.liveBlks F := by
  refine h.invariant (I := fun s => ∃ F, MmRun A s F ∧ MmClean s.mm.pool s.liveBlks F) ?_ ?_
  · exact fun s hinit => ⟨_, MmRun.init hinit⟩
  · rintro s o s' ⟨F, hrun, hclean⟩ hok rfl
    exact hrun.step_clean hclean hok

theorem of_reachable_upward (h : (mmSystem A).Reachable MmUpwardFrees s) :
    ∃ F, MmRun A s F ∧ MmClean s.mm.pool s.liveBlks F := by
  refine of_reachable_stray (h.mono (I := fun _ => True) (fun _ _ => trivial) ?_)
  rintro s (size | addr) - hok
  · trivial
  · exact Or.inl hok

end MmRun

/-! ## 3. The order array -/

/-- **The order array over a run.**  It is tidy as long as no free meets a free buddy below the
released block; and from there a free keeps it tidy exactly if it meets none. -/
theorem mmSystem_tidy (A : MmArea) {s : MmState}
    (h : (mmSystem A).Reachable MmUpwardFrees s) :
    MmTidy s ∧ ∀ addr, s.IsLive addr →
      (MmTidy (mmStep s (.free addr)) ↔ mmFreeMergesBelow s.mm.pool addr = false) := by
  obtain ⟨F, hrun, hclean⟩ := MmRun.of_reachable_upward h
  refine ⟨hrun.tidy_iff.mpr hclean, fun addr hlive => ?_⟩
  obtain ⟨F', hrun', hcl⟩ := hrun.free hlive
  rw [hrun'.tidy_iff, hcl, and_iff_right hclean]

theorem mmSystem_tidy_run :
    let s := [.alloc 8, .alloc 8, .free 0x1008].foldl mmStep (mmFresh mmArea32)
    MmTidy s ∧ ∀ addr, s.IsLive addr →
      (MmTidy (mmStep s (.free addr)) ↔ mmFreeMergesBelow s.mm.pool addr = false) :=
  mmSystem_tidy mmArea32 (mmFold_reachable _ (mmFresh_reachable (by decide)) (by
    simp only [MmOk, MmUpwardFrees]
    decide))

/-- Two blocks of a pool of four, released from the lower one up. -/
def mmLowerFirst : List MmOp := [.alloc 8, .alloc 8, .free 0x1000, .free 0x1008]

theorem mmLowerFirst_reachable : (mmSystem mmArea32).Reachable MmLiveFrees
    (mmLowerFirst.foldl mmStep (mmFresh mmArea32)) :=
  mmFold_reachable _ (mmFresh_reachable (by decide)) (by
    simp only [mmLowerFirst, MmOk, MmLiveFrees]
    decide)

/-- **An entry that nothing owns.** -/
theorem mmSystem_stale_order :
    ¬ ∀ s, (mmSystem mmArea32).Reachable MmLiveFrees s → MmTidy s := by
  intro hall
  have htidy := hall _ mmLowerFirst_reachable
  have hkept : (mmLowerFirst.foldl mmStep (mmFresh mmArea32)).mm.pool.allocOrder 1 = 3 := by
    decide
  obtain ⟨F, hrun⟩ := MmRun.of_reachable mmLowerFirst_reachable
  have hlive : (mmLowerFirst.foldl mmStep (mmFresh mmArea32)).liveBlks = ∅ := by decide
  obtain ⟨b, hb, hbo⟩ := (htidy.recorded 1 (by decide)).mp (by rw [hkept]; decide)
  have hinv := hrun.inv
  rw [hlive] at hinv hb
  -- the only block there is starts at the base
  rcases hb with hb | hb
  · exact Finset.notMem_empty b hb
  · have hbF := hinv.mmFreeBlk_iff.mp hb
    rw [hinv.eq_single, Finset.mem_singleton] at hbF
    rw [hbF] at hbo
    have := Nat.two_pow_pos (mmLowerFirst.foldl mmStep (mmFresh mmArea32)).mm.pool.minOrder
    simp only at hbo
    omega

/-! ## 4. Stray frees -/

/-- **Stray frees.**  In every run whose frees of live blocks meet no free buddy below, a free
of an address that is not a live block changes nothing, if and only if the address is not
strictly inside the first minimum block of a live block. -/
theorem mmSystem_stray_free (A : MmArea) {s : MmState}
    (h : (mmSystem A).Reachable MmStrayFrees s) {addr : Nat} (hstray : ¬ s.IsLive addr) :
    (mmFree s.mm addr).pool = s.mm.pool ↔ ¬ s.InFirst addr := by
  obtain ⟨F, hrun, hclean⟩ := MmRun.of_reachable_stray h
  exact hrun.stray_free_iff hclean hstray

instance (s : MmState) (addr : Nat) : Decidable (s.InFirst addr) :=
  inferInstanceAs (Decidable (∃ e ∈ s.live, e.1 < addr ∧ addr < e.1 + 2 ^ s.mm.pool.minOrder))

theorem mmSystem_stray_free_run :
    let s := [.alloc 8, .alloc 8, .free 0x1008, .free 0x1008].foldl mmStep (mmFresh mmArea32)
    (mmFree s.mm 0x1010).pool = s.mm.pool ↔ ¬ s.InFirst 0x1010 :=
  mmSystem_stray_free mmArea32 (mmFold_reachable _ (mmFresh_reachable (by decide)) (by
    simp only [MmOk, MmStrayFrees]
    decide)) (by decide)

/-- **A second free that is accepted.**  The upper of two merged blocks, released again. -/
theorem mmSystem_double_free :
    ¬ ∀ s, (mmSystem mmArea32).Reachable (fun _ _ => True) s → ∀ addr, ¬ s.IsLive addr →
      (mmFree s.mm addr).pool = s.mm.pool := by
  intro hall
  have hreach : (mmSystem mmArea32).Reachable (fun _ _ => True)
      (mmLowerFirst.foldl mmStep (mmFresh mmArea32)) :=
    mmLowerFirst_reachable.mono (I := fun _ => True) (fun _ _ => trivial) (fun _ _ _ _ => trivial)
  have hsame := congrArg MmPool.allocBlks (hall _ hreach 0x1008 (by decide))
  revert hsame
  decide

/-! ## 5. Coalescing -/

/-- Once everything is released the pool is as `mm_init` left it, and no two buddies are free. -/
structure MmCoalesced (s : MmState) : Prop where
  whole : s.live = [] → s.mm.pool.allocBlks = 0 ∧
    (∀ k ≤ s.mm.pool.maxOrder, listEmpty s.mm.pool.links (.blockOrder k) = true) ∧
    ∀ i < s.mm.pool.nBlks, (s.mm.pool.blkFree i = true ↔ i = 0) ∧
      s.mm.pool.allocOrder i = if i = 0 then s.mm.pool.maxOrder else 0
  lone : ∀ b, MmFreeBlk s.mm.pool b → b.ord < s.mm.pool.maxOrder → ¬ MmFreeBlk s.mm.pool b.buddy

namespace MmRun

variable {A : MmArea} {s : MmState} {F : Finset Blk}

/-- What coalescing gives without a clean order array. -/
theorem whole (h : MmRun A s F) (hlive : s.live = []) :
    s.mm.pool.allocBlks = 0 ∧
      (∀ k ≤ s.mm.pool.maxOrder, listEmpty s.mm.pool.links (.blockOrder k) = true) ∧
      ∀ i < s.mm.pool.nBlks, (s.mm.pool.blkFree i = true ↔ i = 0) := by
  have hL : s.liveBlks = ∅ := by simp [MmState.liveBlks, hlive]
  have hinv := h.inv
  rw [hL] at hinv
  have hF := hinv.eq_single
  refine ⟨hinv.allocBlks_eq_zero_iff.mpr rfl, fun k hk => ?_, fun i hi => ?_⟩
  · refine (hinv.listEmpty_iff hk).mpr (fun b hb _ => ?_)
    rw [hF, Finset.mem_singleton] at hb
    rw [hb]
  · rw [hinv.bits i hi, hF]
    have := Nat.two_pow_pos s.mm.pool.minOrder
    constructor
    · rintro ⟨b, hb, hbo⟩
      rw [Finset.mem_singleton] at hb
      rw [hb] at hbo
      exact (Nat.mul_eq_zero.mp hbo.symm).resolve_right this.ne'
    · rintro rfl
      exact ⟨_, Finset.mem_singleton_self _, by simp⟩

theorem lone (h : MmRun A s F) {b : Blk} (hb : MmFreeBlk s.mm.pool b)
    (hlt : b.ord < s.mm.pool.maxOrder) : ¬ MmFreeBlk s.mm.pool b.buddy :=
  fun hb' => h.inv.lone b (h.inv.mmFreeBlk_iff.mp hb) hlt (h.inv.mmFreeBlk_iff.mp hb')

theorem coalesced (h : MmRun A s F) (hclean : MmClean s.mm.pool s.liveBlks F) :
    MmCoalesced s := by
  refine ⟨fun hlive => ?_, fun b hb hlt => h.lone hb hlt⟩
  obtain ⟨halloc, hlists, hbits⟩ := h.whole hlive
  refine ⟨halloc, hlists, fun i hi => ⟨hbits i hi, ?_⟩⟩
  have hL : s.liveBlks = ∅ := by simp [MmState.liveBlks, hlive]
  have hinv := h.inv
  rw [hL] at hinv hclean
  have hF := hinv.eq_single
  split
  · next hi0 =>
    have hmem : (⟨0, s.mm.pool.maxOrder⟩ : Blk) ∈ F := hF ▸ Finset.mem_singleton_self _
    have := hinv.orders _ hmem
    rwa [Nat.zero_div, ← hi0] at this
  · next hi0 =>
    by_contra hne
    obtain ⟨b, hb, hbo⟩ := hclean i hi hne
    rcases hb with hb | hb
    · exact Finset.notMem_empty b hb
    · rw [hF, Finset.mem_singleton] at hb
      rw [hb] at hbo
      have := Nat.two_pow_pos s.mm.pool.minOrder
      exact hi0 ((Nat.mul_eq_zero.mp hbo.symm).resolve_right this.ne')

end MmRun

/-- **Full coalescing.**  In every run of requests and frees of live blocks that meet no free
buddy below. -/
theorem mmSystem_coalesces (A : MmArea) {s : MmState}
    (h : (mmSystem A).Reachable MmUpwardFrees s) : MmCoalesced s := by
  obtain ⟨F, hrun, hclean⟩ := MmRun.of_reachable_upward h
  exact hrun.coalesced hclean

theorem mmSystem_coalesces_run : MmCoalesced
    ([.alloc 8, .alloc 8, .free 0x1008, .free 0x1000].foldl mmStep (mmFresh mmArea32)) :=
  mmSystem_coalesces mmArea32 (mmFold_reachable _ (mmFresh_reachable (by decide)) (by
    simp only [MmOk, MmUpwardFrees]
    decide))

/-- **A pool that is not as it was.**  The same run leaves an entry behind. -/
theorem mmSystem_residue :
    ¬ ∀ s, (mmSystem mmArea32).Reachable MmLiveFrees s → MmCoalesced s := by
  intro hall
  have hcoal := hall _ mmLowerFirst_reachable
  have horder := ((hcoal.whole (by decide)).2.2 1 (by decide)).2
  revert horder
  decide

end FlightOs
