/-
# The order of a request

`mm_alloc` computes the order of a block from the size that is asked for: find the last bit set,
shift a one there, and take the logarithm of the result.  From `2 ^ 31 + 1` bytes on the one is
shifted out of a word, the logarithm comes out zero, and the minimum order of the pool takes its
place: the request is served with the smallest block there is.

* `ilog2_roundup_wraps`: the order of these sizes.
* `mmAlloc_size_iff`: when a pool gives a block that is large enough, or none.
-/
import FlightOs.Mm.BlockSize

namespace FlightOs

/-- **The order of a size that has no power of two** in a word is that of one byte. -/
theorem ilog2_roundup_wraps {n : Nat} (h : 2 ^ 31 < n) (hn : n < 2 ^ 32) :
    ilog2 (roundupPowOfTwo n) = 0 := by
  have hsub : wsub n 1 = n - 1 := wsub_of_le hn (by omega)
  have hfls : kfls (n - 1) = 32 := by
    have hle : kfls (n - 1) ≤ 32 := kfls_le_iff.mpr (by omega)
    have hge : ¬ kfls (n - 1) ≤ 31 := by
      rw [kfls_le_iff]
      omega
    omega
  rw [roundupPowOfTwo, hsub, hfls]
  decide

section Request

variable {A : MmArea} {s : MmState} {mm : Mm} {L F : Finset Blk} {size : Nat}

/-- What a request relies on: no block is smaller than what was asked for, and what is larger than the
pool is refused, and the pool is as it was. -/
structure MmSizeKept (mm : Mm) (size : Nat) : Prop where
  large : ∀ mm' a, mmAlloc mm size = (mm', some a) → size ≤ mmBlockSize mm'.pool a
  tooLarge : 2 ^ mm.pool.maxOrder < size →
    (mmAlloc mm size).2 = none ∧ (mmAlloc mm size).1.pool = mm.pool

/-- There is no block to be had: something is allocated, and all free lists are empty. -/
def MmExhausted (mp : MmPool) : Prop := mp.allocBlks ≠ 0 ∧ ∀ k ≤ mp.maxOrder, IsFreeList mp k []

/-- A block that is given has the size of its order. -/
theorem Allocated.blockSize {mp mp' : MmPool} {c : Blk} {F' : Finset Blk}
    (h : Allocated mp L F size mp' c F') :
    mmBlockSize mp' (mp.base + c.off) = 2 ^ mmReqOrder mp size := by
  have hc : c ∈ insert c L := Finset.mem_insert_self _ _
  have hpos := Nat.two_pow_pos mp'.minOrder
  rw [← h.ord, ← h.same.base]
  exact h.inv.blockSize_head (.inl hc) (h.inv.live c hc) ⟨Nat.le_refl _, Nat.lt_add_of_pos_right hpos⟩

/-- An order above that of the pool is refused. -/
theorem mmAlloc_tooLarge (h : mm.pool.maxOrder < ilog2 (roundupPowOfTwo size)) :
    mmAlloc mm size = (mm, none) := by
  rw [mmAlloc]
  split
  · rfl
  · rw [mmFixupValidate, if_pos h, mmAllocOrder, if_pos isErrValue_neg_EINVAL]

/-- A search through lists without an entry, by induction on their number. -/
theorem mmFindOrder_none {mp : MmPool} {n i : Nat}
    (h : ∀ k, i ≤ k → k < i + n → listEmpty mp.links (.blockOrder k) = true) :
    mmFindOrder mp n i = none := by
  induction n generalizing i with
  | zero => rfl
  | succ n ih =>
    rw [mmFindOrder, if_pos (h i le_rfl (by omega))]
    exact ih (fun k h1 h2 => h k (by omega) (by omega))

/-- A pool without blocks to be had is refused, and only its statistics change. -/
theorem mmAlloc_exhausted (hex : MmExhausted mm.pool) (size : Nat) :
    (mmAlloc mm size).2 = none ∧ (mmAlloc mm size).1.pool = mm.pool := by
  have hnone : ∀ order, mmFindOrder mm.pool (mm.pool.maxOrder + 1 - order) order = none :=
    fun order => mmFindOrder_none (fun k h1 h2 => (listEmpty_iff (hex.2 k (by omega))).mpr rfl)
  rw [mmAlloc]
  split_ifs with h0
  · exact ⟨rfl, rfl⟩
  · rw [mmAllocOrder]
    split_ifs with herr halloc
    · exact ⟨rfl, rfl⟩
    · rw [hnone]
      exact ⟨rfl, rfl⟩
    · exact absurd hex.1 halloc

/-- When all that is free is the block at the base, there is no block to be had. -/
theorem MmInv.exhausted (h : MmInv mm.pool L F) (hL : L ≠ ∅) (hfree : ∀ b ∈ F, b.off = 0) :
    MmExhausted mm.pool := by
  refine ⟨fun h0 => hL (h.allocBlks_eq_zero_iff.mp h0), fun k hk => ?_⟩
  obtain ⟨xs, hxs, hmem⟩ := h.lists.lists k hk
  have hnil : xs = [] := by
    refine List.eq_nil_iff_forall_not_mem.mpr (fun x hx => ?_)
    obtain ⟨b, hb, -, hoff, -⟩ := (hmem x).mp hx
    exact hoff (hfree b hb)
  rw [hnil] at hxs
  exact hxs

/-- A size whose power of two is a word. -/
theorem MmInv.size_kept (h : MmInv mm.pool L F) (hpos : 0 < size) (hle : size ≤ 2 ^ 31) :
    MmSizeKept mm size where
  large mm' a halloc := by
    have hspec := mmAlloc_spec h size
    rw [halloc] at hspec
    obtain ⟨c, F', rfl, hal⟩ := hspec
    rw [hal.blockSize]
    exact (ilog2_roundup_le_iff hpos hle).mp (le_max_right _ _)
  tooLarge hlarge := by
    have hord : mm.pool.maxOrder < ilog2 (roundupPowOfTwo size) := by
      by_contra hle'
      exact absurd ((ilog2_roundup_le_iff hpos hle).mp (not_lt.mp hle')) (not_le.mpr hlarge)
    rw [mmAlloc_tooLarge hord]
    exact ⟨rfl, rfl⟩

/-- **A size that is too large for a word's power of two** is served with the smallest block, if there
is any block. -/
theorem MmInv.size_wraps (h : MmInv mm.pool L F) (hgt : 2 ^ 31 < size) (hlt : size < 2 ^ 32)
    (hex : ¬ MmExhausted mm.pool) : ¬ MmSizeKept mm size := by
  have hmax := h.geom.maxOrder_lt
  have hmin := h.geom.minOrder_le
  have hreq : mmReqOrder mm.pool size = mm.pool.minOrder := by
    rw [mmReqOrder, ilog2_roundup_wraps hgt hlt]
    exact max_eq_left (Nat.zero_le _)
  intro hkept
  have hspec := mmAlloc_spec h size
  rcases halloc : mmAlloc mm size with ⟨mm', _ | a⟩
  · rw [halloc] at hspec
    obtain ⟨-, hrefused⟩ := hspec
    rcases hrefused.full with h0 | h0 | ⟨hL, hfree⟩
    · omega
    · rw [ilog2_roundup_wraps hgt hlt] at h0
      omega
    · -- every list is empty, for a linked block would do
      exact hex (h.exhausted hL (fun b hb => hfree b hb (hreq ▸ h.minOrder_le b (.inr hb))))
  · have hsize := hkept.large mm' a halloc
    rw [halloc] at hspec
    obtain ⟨c, F', rfl, hal⟩ := hspec
    rw [hal.blockSize, hreq] at hsize
    have hpow : 2 ^ mm.pool.minOrder ≤ 2 ^ 31 := Nat.pow_le_pow_right (by norm_num) (by omega)
    omega

end Request

/-- **When the size of a request is kept**: its power of two is a word, or there is no block to be
had. -/
theorem mmAlloc_size_iff (A : MmArea) {s : MmState} (h : (mmSystem A).Reachable MmLiveFrees s)
    {size : Nat} (hpos : 0 < size) (hlt : size < 2 ^ 32) :
    MmSizeKept s.mm size ↔ size ≤ 2 ^ 31 ∨ MmExhausted s.mm.pool := by
  obtain ⟨F, hrun⟩ := MmRun.of_reachable h
  constructor
  · intro hkept
    by_contra hno
    obtain ⟨hgt, hex⟩ := not_or.mp hno
    exact hrun.inv.size_wraps (not_le.mp hgt) hlt hex hkept
  · rintro (hle | hex)
    · exact hrun.inv.size_kept hpos hle
    · obtain ⟨hnone, hpool⟩ := mmAlloc_exhausted hex size
      refine ⟨fun mm' a halloc => ?_, fun _ => ⟨hnone, hpool⟩⟩
      rw [halloc] at hnone
      cases hnone

theorem mmAlloc_size_iff_fresh : MmSizeKept (mmFresh mmArea32).mm 9 ↔
    9 ≤ 2 ^ 31 ∨ MmExhausted (mmFresh mmArea32).mm.pool :=
  mmAlloc_size_iff mmArea32 (mmFresh_reachable (by decide)) (by decide) (by decide)

/-- **Two gigabytes and a byte** from a pool of 32 bytes: a block of eight. -/
theorem mmAlloc_size_wraps : (mmSystem mmArea32).Reachable MmLiveFrees (mmFresh mmArea32) ∧
    ¬ MmSizeKept (mmFresh mmArea32).mm (2 ^ 31 + 1) ∧
    (mmAlloc (mmFresh mmArea32).mm (2 ^ 31 + 1)).2 = some 0x1000 ∧
    mmBlockSize (mmAlloc (mmFresh mmArea32).mm (2 ^ 31 + 1)).1.pool 0x1000 = 8 := by
  have haddr : (mmAlloc (mmFresh mmArea32).mm (2 ^ 31 + 1)).2 = some 0x1000 := by decide
  have hsize : mmBlockSize (mmAlloc (mmFresh mmArea32).mm (2 ^ 31 + 1)).1.pool 0x1000 = 8 := by
    decide
  refine ⟨mmFresh_reachable (by decide), fun hkept => ?_, haddr, hsize⟩
  obtain ⟨large, -⟩ := hkept
  generalize mmAlloc (mmFresh mmArea32).mm (2 ^ 31 + 1) = r at haddr hsize large
  have hle := large r.1 0x1000 (Prod.ext rfl haddr)
  rw [hsize] at hle
  exact absurd hle (by decide)

end FlightOs
