/-
# What `mm_block_size` answers

The size of a block is read from the order array, at the minimum block that the address lies in.
The array holds the order of the free blocks as well as of the live ones: `mm_split_blk` records
it and `mm_merge_blk` compares it.  So the answer does not tell a live block from a free one.

* `mmBlockSize_eq`: the answer in terms of the recorded order;
* `mmSystem_blockSize`: the answers in every state of a run;
* `mmSystem_blockSize_freed`: a released block whose size is still told.
-/
import FlightOs.Mm.Bookkeeping

namespace FlightOs

/-! ## 1. The recorded order -/

section Recorded

variable {mp : MmPool} {B F : Finset Blk}

/-- Outside the pool the answer is zero. -/
theorem mmBlockSize_outside (g : MmGeom mp) {a : Nat}
    (ha : a < mp.base ∨ mp.base + 2 ^ mp.maxOrder ≤ a) : mmBlockSize mp a = 0 := by
  have hvalid : mmBlkAddrValid mp a = false := by
    rw [Bool.eq_false_iff, ne_eq, mmBlkAddrValid_iff g]
    omega
  have hpool : mmAddrInPool mp a = false := by
    rw [mmAddrInPool, hvalid]
    split <;> rfl
  rw [mmBlockSize, hpool]
  rfl

/-- Inside the pool it is two to the power of the recorded order, or zero where that is zero. -/
theorem mmBlockSize_eq (g : MmGeom mp) {o : Nat} (ho : o < 2 ^ mp.maxOrder) :
    mmBlockSize mp (mp.base + o) =
      if mp.allocOrder (o / 2 ^ mp.minOrder) = 0 then 0
      else wshl 1 (mp.allocOrder (o / 2 ^ mp.minOrder)) := by
  have hidx := mmBlkIdx_eq g ho
  have hlt : o / 2 ^ mp.minOrder < mp.nBlks := by
    rw [Nat.div_lt_iff_lt_mul (Nat.two_pow_pos _), g.nBlks_mul]
    exact ho
  have hvalid : mmBlkAddrValid mp (mp.base + o) = true :=
    (mmBlkAddrValid_iff g).mpr ⟨Nat.le_add_right _ _, Nat.add_lt_add_left ho _⟩
  have hpool : mmAddrInPool mp (mp.base + o) = (mp.allocOrder (o / 2 ^ mp.minOrder) != 0) := by
    rw [mmAddrInPool, hidx, if_neg (by omega), if_neg (by simp [hvalid]), mmBlkGetAllocOrder, hidx]
  rw [mmBlockSize, hpool, mmBlkGetAllocOrder, hidx]
  by_cases h0 : mp.allocOrder (o / 2 ^ mp.minOrder) = 0
  · simp [h0]
  · rw [if_neg h0, if_pos (bne_iff_ne.mpr h0)]

/-- The address lies in the first minimum block of a block. -/
def MmPool.HeadOf (mp : MmPool) (b : Blk) (a : Nat) : Prop :=
  mp.base + b.off ≤ a ∧ a < mp.base + b.off + 2 ^ mp.minOrder

/-- The addresses of a first minimum block are those of its index. -/
theorem Core.headOf_iff (h : Core mp B F) {b : Blk} (hb : b ∈ B ∨ b ∈ F) {o : Nat} :
    mp.HeadOf b (mp.base + o) ↔ o / 2 ^ mp.minOrder = b.off / 2 ^ mp.minOrder := by
  rw [off_div_eq_iff (h.off_dvd hb), MmPool.HeadOf]
  omega

/-- **The first minimum block of a block whose order is recorded** tells its size. -/
theorem Core.blockSize_head (h : Core mp B F) {b : Blk} (hb : b ∈ B ∨ b ∈ F)
    (hord : mp.allocOrder (b.off / 2 ^ mp.minOrder) = b.ord) {a : Nat} (ha : mp.HeadOf b a) :
    mmBlockSize mp a = 2 ^ b.ord := by
  have hmin := h.minOrder_le b hb
  have hmin3 := h.geom.minOrder_ge
  have hle := h.ord_le hb
  have hmax := h.geom.maxOrder_lt
  have hstop := h.stop_le hb
  have hpow : 2 ^ mp.minOrder ≤ 2 ^ b.ord := Nat.pow_le_pow_right (by norm_num) hmin
  obtain ⟨o, rfl⟩ := Nat.exists_eq_add_of_le (Nat.le_trans (Nat.le_add_right _ _) ha.1)
  have hdiv := (h.headOf_iff hb).mp ha
  have ho : o < 2 ^ mp.maxOrder := by
    have := ha.2
    omega
  rw [mmBlockSize_eq h.geom ho, hdiv, hord, if_neg (by omega), wshl_one (by omega)]

/-- In a clean pool the rest of the addresses have no size. -/
theorem Core.blockSize_none (h : Core mp B F) (hclean : MmClean mp B F) {a : Nat}
    (ha : ∀ b, b ∈ B ∨ b ∈ F → ¬ mp.HeadOf b a) : mmBlockSize mp a = 0 := by
  by_cases hin : a < mp.base ∨ mp.base + 2 ^ mp.maxOrder ≤ a
  · exact mmBlockSize_outside h.geom hin
  · obtain ⟨o, rfl⟩ := Nat.exists_eq_add_of_le (show mp.base ≤ a by omega)
    have ho : o < 2 ^ mp.maxOrder := by omega
    have hlt : o / 2 ^ mp.minOrder < mp.nBlks := by
      rw [Nat.div_lt_iff_lt_mul (Nat.two_pow_pos _), h.geom.nBlks_mul]
      exact ho
    rw [mmBlockSize_eq h.geom ho, if_pos]
    by_contra hne
    obtain ⟨b, hb, hbo⟩ := hclean _ hlt hne
    exact ha b hb ((h.headOf_iff hb).mpr ((off_eq_mul_iff (h.off_dvd hb)).mp hbo).symm)

end Recorded

/-! ## 2. Runs -/

/-- The answers at the starts of the live blocks, at the free blocks and outside the pool. -/
structure MmSized (s : MmState) : Prop where
  live : ∀ e ∈ s.live, mmBlockSize s.mm.pool e.1 = 2 ^ mmReqOrder s.mm.pool e.2
  free : ∀ b, MmFreeBlk s.mm.pool b → ∀ a, s.mm.pool.HeadOf b a →
    mmBlockSize s.mm.pool a = 2 ^ b.ord
  outside : ∀ a, a < s.mm.pool.base ∨ s.mm.pool.base + 2 ^ s.mm.pool.maxOrder ≤ a →
    mmBlockSize s.mm.pool a = 0

theorem MmRun.sized {A : MmArea} {s : MmState} {F : Finset Blk} (h : MmRun A s F) : MmSized s where
  live e he := by
    obtain ⟨hbL, hba⟩ := h.mem_live he
    refine h.inv.blockSize_head (Or.inl hbL) (h.inv.live _ hbL) ⟨hba.le, ?_⟩
    have := Nat.two_pow_pos s.mm.pool.minOrder
    omega
  free b hb a ha := by
    have hbF := h.inv.mmFreeBlk_iff.mp hb
    exact h.inv.blockSize_head (Or.inr hbF) (h.inv.orders b hbF) ha
  outside a ha := mmBlockSize_outside h.inv.geom ha

/-- **The size of a block.**  In every run of requests and frees of live blocks, a live block tells
its size, and so does a free one; outside the pool there is none.  As long as no free has met a free
buddy below the released block, no other address has a size. -/
theorem mmSystem_blockSize (A : MmArea) {s : MmState} (h : (mmSystem A).Reachable MmLiveFrees s) :
    MmSized s ∧ ((mmSystem A).Reachable MmUpwardFrees s → ∀ a,
      (∀ b, b ∈ s.liveBlks ∨ MmFreeBlk s.mm.pool b → ¬ s.mm.pool.HeadOf b a) →
        mmBlockSize s.mm.pool a = 0) := by
  obtain ⟨F, hrun⟩ := MmRun.of_reachable h
  refine ⟨hrun.sized, fun hup a ha => ?_⟩
  obtain ⟨F', hrun', hclean⟩ := MmRun.of_reachable_upward hup
  exact hrun'.inv.blockSize_none hclean
    (fun b hb => ha b (hb.imp_right hrun'.inv.mmFreeBlk_iff.mpr))

theorem mmSystem_blockSize_run :
    let s := [.alloc 8, .alloc 9, .free 0x1000].foldl mmStep (mmFresh mmArea32)
    MmSized s ∧ ((mmSystem mmArea32).Reachable MmUpwardFrees s → ∀ a,
      (∀ b, b ∈ s.liveBlks ∨ MmFreeBlk s.mm.pool b → ¬ s.mm.pool.HeadOf b a) →
        mmBlockSize s.mm.pool a = 0) :=
  mmSystem_blockSize mmArea32 (mmFold_reachable _ (mmFresh_reachable (by decide)) (by
    simp only [MmOk, MmLiveFrees]
    decide))

/-- **A released block that still has a size.**  Two blocks are taken and the upper one is
released; no live block holds its address. -/
theorem mmSystem_blockSize_freed : ∃ s, (mmSystem mmArea32).Reachable MmLiveFrees s ∧
    (∀ e ∈ s.live, e.1 + 2 ^ mmReqOrder s.mm.pool e.2 ≤ 0x1010) ∧
    mmBlockSize s.mm.pool 0x1010 = 16 := by
  refine ⟨[.alloc 8, .alloc 9, .free 0x1010].foldl mmStep (mmFresh mmArea32), ?_, ?_, ?_⟩
  · exact mmFold_reachable _ (mmFresh_reachable (by decide)) (by
      simp only [MmOk, MmLiveFrees]
      decide)
  · decide
  · decide

end FlightOs
