/-
# The buddy pool over whole runs: safety and completeness

What a caller of `mm_alloc` may rely on, in every state that a run of `mm_alloc` and of
`mm_free` on live blocks can reach:

* `mmSystem_safe`: the live blocks are dyadic, hold what was asked for, lie in the pool, and
  overlap neither one another nor a block on a free list;
* `mmSystem_complete`: the live blocks, the blocks on the free lists and the block at the base,
  when that one is free, account for the whole pool, and a request fails only if every room for
  it lies inside the free block at the base.

The block at the base is never linked ("never link the initial block"), so once anything is
allocated a free block there is out of reach until a buddy merges with it.
`mmSystem_base_lost` is the smallest run on which that shows.
-/
import FlightOs.Mm.Run

namespace FlightOs

/-! ## 1. The free blocks, as the pool has them -/

/-- The addresses `xs` are the entries of the free list of order `k`, in order. -/
def IsFreeList (mp : MmPool) (k : Nat) (xs : List Nat) : Prop :=
  Ring mp.links (.blockOrder k) (xs.map .blk)

/-- A free block: an entry of the free list of its order, or the block at the base, which is
marked only. -/
def MmFreeBlk (mp : MmPool) (b : Blk) : Prop :=
  (b.ord ≤ mp.maxOrder ∧ ∃ xs, IsFreeList mp b.ord xs ∧ mp.base + b.off ∈ xs) ∨
    (b = ⟨0, mmBlkGetAllocOrder mp mp.base⟩ ∧ mmBlkFree mp mp.base = true)

section FreeBlocks

variable {mp : MmPool} {B F : Finset Blk}

/-- A block of the pool starts at the base. -/
theorem Core.exists_base (h : Core mp B F) : ∃ b, (b ∈ B ∨ b ∈ F) ∧ b.off = 0 := by
  obtain ⟨b, hb, hb0⟩ := (h.tiling.cover 0).mpr (Nat.two_pow_pos _)
  exact ⟨b, hb, Nat.le_zero.mp hb0.1⟩

/-- The free block at the base, if there is one. -/
theorem Core.base_free_iff (h : Core mp B F) :
    mmBlkFree mp mp.base = true ↔ ⟨0, mmBlkGetAllocOrder mp mp.base⟩ ∈ F := by
  obtain ⟨b, hb, hb0⟩ := h.exists_base
  have hfree := h.free_iff hb
  rw [hb0, Nat.add_zero] at hfree
  rw [hfree]
  constructor
  · intro hbF
    have hord := (h.freeBlk_iff (h.tiling.aligned b hb) (h.minOrder_le b hb) (h.off_lt hb)).mpr hbF
    rw [hb0, Nat.add_zero] at hord
    rw [hord.2, ← hb0]
    exact hbF
  · intro hF
    exact (h.uniq (Or.inr hF) hb hb0.symm) ▸ hF

/-- **The free blocks of the pool are the free blocks of its invariant.** -/
theorem Core.mmFreeBlk_iff (h : Core mp B F) {b : Blk} : MmFreeBlk mp b ↔ b ∈ F := by
  constructor
  · rintro (⟨hle, xs, hxs, hmem⟩ | ⟨rfl, hfree⟩)
    · obtain ⟨ys, hys, hymem⟩ := h.lists.lists b.ord hle
      have hxy : xs = ys :=
        List.map_injective_iff.mpr (fun _ _ e => MmNode.blk.inj e) (hxs.unique hys)
      subst hxy
      obtain ⟨c, hc, hck, -, hoff⟩ := (hymem _).mp hmem
      have hbc : b = c := by
        cases b
        cases c
        simp_all
      exact hbc ▸ hc
    · exact h.base_free_iff.mp hfree
  · intro hb
    by_cases h0 : b.off = 0
    · obtain ⟨hfree, hord⟩ := (h.freeBlk_iff (h.tiling.aligned b (Or.inr hb))
        (h.minOrder_le b (Or.inr hb)) (h.off_lt (Or.inr hb))).mpr hb
      rw [h0, Nat.add_zero] at hfree hord
      refine Or.inr ⟨?_, hfree⟩
      rw [hord, ← h0]
    · have hle := h.ord_le (Or.inr hb)
      obtain ⟨xs, hxs, hmem⟩ := h.lists.lists b.ord hle
      exact Or.inl ⟨hle, xs, hxs, (hmem _).mpr ⟨b, hb, rfl, h0, rfl⟩⟩

end FreeBlocks

/-! ## 2. Safety -/

/-- The calls of a well-behaved caller: any request, and frees of live blocks. -/
def MmLiveFrees (s : MmState) : MmOp → Prop
  | .alloc _ => True
  | .free addr => s.IsLive addr

/-- The same, with requests of at most the size of the pool. -/
def MmFitting (s : MmState) : MmOp → Prop
  | .alloc size => size ≤ 2 ^ s.mm.pool.maxOrder
  | .free addr => s.IsLive addr

/-- Every run of a well-behaved caller keeps the invariant. -/
theorem MmRun.of_reachable {A : MmArea} {s : MmState}
    (h : (mmSystem A).Reachable MmLiveFrees s) : ∃ F, MmRun A s F := by
  refine h.invariant (I := fun s => ∃ F, MmRun A s F) ?_ ?_
  · exact fun s hinit => ⟨_, (MmRun.init hinit).1⟩
  · rintro s (size | addr) s' ⟨F, hrun⟩ hok rfl
    · obtain ⟨F', hrun', -⟩ := hrun.alloc size
      exact ⟨F', hrun'⟩
    · obtain ⟨F', hrun', -⟩ := hrun.free hok
      exact ⟨F', hrun'⟩

/-- The order recorded for a live block, `mm_block_size` being two to its power. -/
def MmState.order (s : MmState) (e : Nat × Nat) : Nat := mmBlkGetAllocOrder s.mm.pool e.1

/-- What a caller relies on. -/
structure MmSafe (s : MmState) : Prop where
  inside : ∀ e ∈ s.live, s.mm.pool.base ≤ e.1 ∧
    e.1 + 2 ^ s.order e ≤ s.mm.pool.base + 2 ^ s.mm.pool.maxOrder
  holds : ∀ e ∈ s.live, e.2 ≤ 2 ^ s.order e
  aligned : ∀ e ∈ s.live, 2 ^ s.order e ∣ e.1 - s.mm.pool.base
  disjoint : s.live.Pairwise fun d e =>
    d.1 + 2 ^ s.order d ≤ e.1 ∨ e.1 + 2 ^ s.order e ≤ d.1
  unlinked : ∀ k ≤ s.mm.pool.maxOrder, ∃ xs, IsFreeList s.mm.pool k xs ∧
    ∀ a ∈ xs, ∀ e ∈ s.live, a + 2 ^ k ≤ e.1 ∨ e.1 + 2 ^ s.order e ≤ a

namespace MmRun

variable {A : MmArea} {s : MmState} {F : Finset Blk}

/-- The recorded order of a live block is the one its request takes. -/
theorem order_eq (h : MmRun A s F) {e : Nat × Nat} (he : e ∈ s.live) :
    s.order e = (liveBlk s.mm.pool e).ord := by
  obtain ⟨hbL, hba⟩ := h.mem_live he
  rw [MmState.order, ← hba, h.inv.getAllocOrder hbL]

/-- A live block in terms of its dyadic block. -/
theorem stop_eq (h : MmRun A s F) {e : Nat × Nat} (he : e ∈ s.live) :
    s.mm.pool.base + (liveBlk s.mm.pool e).stop = e.1 + 2 ^ s.order e := by
  rw [Blk.stop, ← Nat.add_assoc, (h.mem_live he).2, h.order_eq he]

/-- The order of a request holds it. -/
theorem holds (h : MmRun A s F) {e : Nat × Nat} (he : e ∈ s.live) (hsize : e.2 ≤ 2 ^ 31) :
    e.2 ≤ 2 ^ s.order e := by
  rw [h.order_eq he]
  rcases Nat.eq_zero_or_pos e.2 with h0 | hpos
  · rw [h0]
    exact Nat.zero_le _
  · exact (ilog2_roundup_le_iff hpos hsize).mp (le_max_right _ _)

theorem inside (h : MmRun A s F) {e : Nat × Nat} (he : e ∈ s.live) : s.mm.pool.base ≤ e.1 ∧
    e.1 + 2 ^ s.order e ≤ s.mm.pool.base + 2 ^ s.mm.pool.maxOrder := by
  have hstop := h.inv.tiling.stop_le (Or.inl (h.mem_live he).1)
  have heq := h.stop_eq he
  exact ⟨h.base_le e he, by omega⟩

/-- Live blocks with different addresses have no byte in common. -/
theorem apart (h : MmRun A s F) {d e : Nat × Nat} (hd : d ∈ s.live) (he : e ∈ s.live)
    (hne : d.1 ≠ e.1) : d.1 + 2 ^ s.order d ≤ e.1 ∨ e.1 + 2 ^ s.order e ≤ d.1 := by
  have hbne : liveBlk s.mm.pool d ≠ liveBlk s.mm.pool e :=
    fun heq => hne (congrArg Prod.fst (h.eq_of_liveBlk hd he heq))
  have hdisj := h.inv.tiling.disjoint (Or.inl (h.mem_live hd).1) (Or.inl (h.mem_live he).1) hbne
  have := h.stop_eq hd
  have := h.stop_eq he
  have := (h.mem_live hd).2
  have := (h.mem_live he).2
  omega

theorem safe (h : MmRun A s F) (hsize : ∀ e ∈ s.live, e.2 ≤ 2 ^ 31) : MmSafe s where
  inside e he := h.inside he
  holds e he := h.holds he (hsize e he)
  aligned e he := by
    rw [h.order_eq he]
    exact h.inv.tiling.aligned _ (Or.inl (h.mem_live he).1)
  disjoint := (List.pairwise_map.mp h.addrs).imp_of_mem (fun hd he hne => h.apart hd he hne)
  unlinked k hk := by
    obtain ⟨xs, hxs, hmem⟩ := h.inv.lists.lists k hk
    refine ⟨xs, hxs, fun a ha e he => ?_⟩
    obtain ⟨b, hb, rfl, -, rfl⟩ := (hmem a).mp ha
    obtain ⟨hbL, hba⟩ := h.mem_live he
    have hbne : b ≠ liveBlk s.mm.pool e := by
      rintro rfl
      exact h.inv.disj _ hbL hb
    have hdisj := h.inv.tiling.disjoint (Or.inr hb) (Or.inl hbL) hbne
    have := h.stop_eq he
    simp only [Blk.stop] at *
    omega

end MmRun

/-- **Safety of the buddy pool.**  Whatever the order of requests of up to the pool's size and
of frees of live blocks, the live blocks are sound. -/
theorem mmSystem_safe (A : MmArea) {s : MmState} (h : (mmSystem A).Reachable MmFitting s) :
    MmSafe s := by
  have hinv : (∃ F, MmRun A s F) ∧ ∀ e ∈ s.live, e.2 ≤ 2 ^ 31 := by
    refine h.invariant (I := fun s => (∃ F, MmRun A s F) ∧ ∀ e ∈ s.live, e.2 ≤ 2 ^ 31) ?_ ?_
    · rintro s hinit
      refine ⟨⟨_, (MmRun.init hinit).1⟩, ?_⟩
      rw [hinit.1]
      simp
    · rintro s (size | addr) s' ⟨⟨F, hrun⟩, hsize⟩ hok rfl
      · obtain ⟨F', hrun', -⟩ := hrun.alloc size
        refine ⟨⟨F', hrun'⟩, ?_⟩
        have hmax := hrun.inv.geom.maxOrder_lt
        have hle : size ≤ 2 ^ 31 :=
          le_trans hok (Nat.pow_le_pow_right (by norm_num) (by omega))
        rw [mmStep]
        split
        · intro e he
          rcases List.mem_cons.mp he with rfl | he
          · exact hle
          · exact hsize e he
        · exact hsize
      · obtain ⟨F', hrun', -⟩ := hrun.free hok
        exact ⟨⟨F', hrun'⟩, fun e he => hsize e (List.mem_of_mem_filter he)⟩
  obtain ⟨⟨F, hrun⟩, hsize⟩ := hinv
  exact hrun.safe hsize

theorem mmSystem_safe_run : MmSafe
    ([.alloc 8, .alloc 5, .alloc 9, .free 0x1008].foldl mmStep (mmFresh mmArea32)) :=
  mmSystem_safe mmArea32 (mmFold_reachable _ (mmFresh_reachable (by decide)) (by
    simp only [MmOk, MmFitting]
    decide))

/-! ## 3. Completeness -/

/-- The minimum blocks in the free lists: `xs k` are the entries of the list of order `k`. -/
def linkedBlks (mp : MmPool) (xs : Nat → List Nat) : Nat :=
  ∑ k ∈ Finset.range (mp.maxOrder + 1), (xs k).length * 2 ^ (k - mp.minOrder)

/-- The minimum blocks of the block at the base, if that is free. -/
def baseBlks (mp : MmPool) : Nat :=
  if mmBlkFree mp mp.base then 2 ^ (mmBlkGetAllocOrder mp mp.base - mp.minOrder) else 0

/-- The free lists together hold the free blocks away from the base. -/
theorem Core.linkedBlks_eq {mp : MmPool} {B F : Finset Blk} (h : Core mp B F)
    {xs : Nat → List Nat} (hxs : ∀ k ≤ mp.maxOrder, IsFreeList mp k (xs k)) :
    linkedBlks mp xs = ∑ b ∈ F with b.off ≠ 0, 2 ^ (b.ord - mp.minOrder) := by
  have hmaps : ∀ b ∈ F.filter (fun b => b.off ≠ 0), b.ord ∈ Finset.range (mp.maxOrder + 1) := by
    intro b hb
    have := h.ord_le (Or.inr (Finset.mem_filter.mp hb).1)
    rw [Finset.mem_range]
    omega
  rw [linkedBlks, ← Finset.sum_fiberwise_of_maps_to hmaps]
  refine Finset.sum_congr rfl (fun k hk => ?_)
  have hk' : k ≤ mp.maxOrder := by
    rw [Finset.mem_range] at hk
    omega
  -- the list of order `k` names each free block of that order once
  obtain ⟨ys, hys, hmem⟩ := h.lists.lists k hk'
  have hxy : xs k = ys :=
    List.map_injective_iff.mpr (fun _ _ e => MmNode.blk.inj e) ((hxs k hk').unique hys)
  have hnd : ys.Nodup := List.Nodup.of_map _ (List.nodup_cons.mp hys.nodup).2
  have himg : ys.toFinset =
      ((F.filter (fun b => b.off ≠ 0)).filter (fun b => b.ord = k)).image
        (fun b => mp.base + b.off) := by
    ext a
    rw [List.mem_toFinset, hmem, Finset.mem_image]
    constructor
    · rintro ⟨b, hb, hbk, h0, rfl⟩
      exact ⟨b, Finset.mem_filter.mpr ⟨Finset.mem_filter.mpr ⟨hb, h0⟩, hbk⟩, rfl⟩
    · rintro ⟨b, hb, rfl⟩
      obtain ⟨hb, hbk⟩ := Finset.mem_filter.mp hb
      obtain ⟨hb, h0⟩ := Finset.mem_filter.mp hb
      exact ⟨b, hb, hbk, h0, rfl⟩
  have hcard : ys.length =
      ((F.filter (fun b => b.off ≠ 0)).filter (fun b => b.ord = k)).card := by
    rw [← List.toFinset_card_of_nodup hnd, himg]
    refine Finset.card_image_of_injOn (fun b hb c hc e => ?_)
    have hbF := (Finset.mem_filter.mp (Finset.mem_filter.mp hb).1).1
    have hcF := (Finset.mem_filter.mp (Finset.mem_filter.mp hc).1).1
    exact h.uniqF b hbF c hcF (Nat.add_left_cancel e)
  rw [hxy, hcard]
  exact (Finset.sum_const_nat (fun b hb => by rw [(Finset.mem_filter.mp hb).2])).symm

/-- The block at the base is the one free block that is on no list. -/
theorem Core.baseBlks_eq {mp : MmPool} {B F : Finset Blk} (h : Core mp B F) :
    baseBlks mp = ∑ b ∈ F with ¬ b.off ≠ 0, 2 ^ (b.ord - mp.minOrder) := by
  rw [baseBlks]
  by_cases hf : mmBlkFree mp mp.base = true
  · have hb := h.base_free_iff.mp hf
    have hone : F.filter (fun b => ¬ b.off ≠ 0) = {⟨0, mmBlkGetAllocOrder mp mp.base⟩} := by
      ext c
      rw [Finset.mem_filter, not_not, Finset.mem_singleton]
      constructor
      · rintro ⟨hc, hc0⟩
        exact h.uniqF c hc _ hb hc0
      · rintro rfl
        exact ⟨hb, rfl⟩
    rw [if_pos hf, hone, Finset.sum_singleton]
  · have hnone : F.filter (fun b => ¬ b.off ≠ 0) = ∅ := by
      rw [Finset.filter_eq_empty_iff]
      intro c hc hc0
      rw [not_not] at hc0
      have := h.free_iff (Or.inr hc)
      rw [hc0, Nat.add_zero] at this
      exact hf (this.mpr hc)
    rw [if_neg hf, hnone, Finset.sum_empty]

/-- What `mm_unallocated_blocks` counts. -/
theorem MmInv.unallocated {mp : MmPool} {L F : Finset Blk} (h : MmInv mp L F) :
    mmUnallocatedBlocks mp = ∑ b ∈ F, 2 ^ (b.ord - mp.minOrder) := by
  have hsum := h.sum_blks
  have hmax := h.geom.maxOrder_lt
  have hn : mp.nBlks < 2 ^ 32 := by
    rw [h.geom.nBlks]
    exact Nat.pow_lt_pow_right (by norm_num) (by omega)
  rw [mmUnallocatedBlocks, h.alloc, wsub_of_le hn (by omega)]
  omega

/-- The room `r` of the pool holds no byte of a live block. -/
def MmState.Unused (s : MmState) (r : Blk) : Prop :=
  ∀ e ∈ s.live, s.mm.pool.base + r.stop ≤ e.1 ∨ e.1 + 2 ^ s.order e ≤ s.mm.pool.base + r.off

/-- The pool is accounted for, and a request is refused only if the block at the base is free
and holds every room there is for it. -/
structure MmComplete (s : MmState) : Prop where
  conserved : ∃ xs, (∀ k ≤ s.mm.pool.maxOrder, IsFreeList s.mm.pool k (xs k)) ∧
    s.mm.pool.allocBlks + linkedBlks s.mm.pool xs + baseBlks s.mm.pool = s.mm.pool.nBlks
  refused : ∀ size, 0 < size → (mmAlloc s.mm size).2 = none →
    ∀ r : Blk, r.ord = ilog2 (roundupPowOfTwo size) → r.Aligned →
      r.stop ≤ 2 ^ s.mm.pool.maxOrder → s.Unused r →
      s.mm.pool.allocBlks ≠ 0 ∧ mmBlkFree s.mm.pool s.mm.pool.base = true ∧
        r.stop ≤ 2 ^ mmBlkGetAllocOrder s.mm.pool s.mm.pool.base

namespace MmRun

variable {A : MmArea} {s : MmState} {F : Finset Blk}

theorem conserved (h : MmRun A s F) :
    ∃ xs, (∀ k ≤ s.mm.pool.maxOrder, IsFreeList s.mm.pool k (xs k)) ∧
      s.mm.pool.allocBlks + linkedBlks s.mm.pool xs + baseBlks s.mm.pool = s.mm.pool.nBlks := by
  have hex : ∀ k, ∃ xs : List Nat, k ≤ s.mm.pool.maxOrder → IsFreeList s.mm.pool k xs := by
    intro k
    by_cases hk : k ≤ s.mm.pool.maxOrder
    · obtain ⟨xs, hxs, -⟩ := h.inv.lists.lists k hk
      exact ⟨xs, fun _ => hxs⟩
    · exact ⟨[], fun hk' => absurd hk' hk⟩
  obtain ⟨xs, hxs⟩ := Classical.axiomOfChoice hex
  refine ⟨xs, hxs, ?_⟩
  rw [h.inv.linkedBlks_eq hxs, h.inv.baseBlks_eq, h.inv.alloc, Nat.add_assoc,
    Finset.sum_filter_add_sum_filter_not, h.inv.sum_blks]

/-- A released block counts as unallocated. -/
theorem unallocated_lt (h : MmRun A s F) {addr : Nat} (ha : s.IsLive addr) :
    mmUnallocatedBlocks s.mm.pool < mmUnallocatedBlocks (mmFree s.mm addr).pool := by
  obtain ⟨e, he, rfl⟩ := ha
  obtain ⟨c, hc⟩ : ∃ c, c = liveBlk s.mm.pool e := ⟨_, rfl⟩
  have hcL : c ∈ s.liveBlks := hc ▸ (h.mem_live he).1
  obtain ⟨F', hinv, hsame, -⟩ := h.freed he hc
  have hbefore := h.inv.sum_blks
  have hafter := hinv.sum_blks
  have hpos := Nat.two_pow_pos (c.ord - s.mm.pool.minOrder)
  rw [← Finset.sum_erase_add _ _ hcL] at hbefore
  rw [hsame.minOrder, hsame.nBlks] at hafter
  rw [h.inv.unallocated, hinv.unallocated, hsame.minOrder]
  omega

/-- An unused room lies inside a free block. -/
theorem exists_free (h : MmRun A s F) {r : Blk} (hal : r.Aligned)
    (hr : r.stop ≤ 2 ^ s.mm.pool.maxOrder) (hun : s.Unused r) : ∃ b ∈ F, r.Inside b := by
  have hmeet : ∀ b, (b ∈ s.liveBlks ∨ b ∈ F) → ∀ x, b.Has x → r.Has x → b ∈ F := by
    intro b hb x hbx hrx
    refine hb.resolve_left (fun hbL => ?_)
    obtain ⟨e, he, rfl⟩ := MmState.mem_liveBlks.mp hbL
    have := hun e he
    have := h.stop_eq he
    have := (h.mem_live he).2
    simp only [Blk.Has] at hbx hrx
    omega
  obtain ⟨b, -, hbF, hin⟩ := h.inv.tiling.exists_of_lone (Q := {b | b ∈ F})
    (fun b _ hbF hlt _ => h.inv.lone b hbF hlt) r.ord r rfl hal hr hmeet
  exact ⟨b, hbF, hin⟩

theorem refused (h : MmRun A s F) {size : Nat} (h0 : 0 < size)
    (hnone : (mmAlloc s.mm size).2 = none) {r : Blk} (hr : r.ord = ilog2 (roundupPowOfTwo size))
    (hal : r.Aligned) (hstop : r.stop ≤ 2 ^ s.mm.pool.maxOrder) (hun : s.Unused r) :
    s.mm.pool.allocBlks ≠ 0 ∧ mmBlkFree s.mm.pool s.mm.pool.base = true ∧
      r.stop ≤ 2 ^ mmBlkGetAllocOrder s.mm.pool s.mm.pool.base := by
  have hspec := mmAlloc_spec h.inv size
  obtain ⟨mm', hm⟩ : ∃ mm', mmAlloc s.mm size = (mm', none) :=
    ⟨(mmAlloc s.mm size).1, Prod.ext rfl hnone⟩
  rw [hm] at hspec
  rcases hspec.2.full with hz | hbig | ⟨hL, hF⟩
  · omega
  · -- a room of that order would not fit
    have hpow : 2 ^ s.mm.pool.maxOrder < 2 ^ r.ord :=
      Nat.pow_lt_pow_right (by norm_num) (hr ▸ hbig)
    simp only [Blk.stop] at hstop
    omega
  · obtain ⟨b, hbF, hin⟩ := h.exists_free hal hstop hun
    have hord : r.ord ≤ b.ord := by
      by_contra hlt
      have hpow : 2 ^ b.ord < 2 ^ r.ord := Nat.pow_lt_pow_right (by norm_num) (not_le.mp hlt)
      simp only [Blk.Inside, Blk.stop] at hin
      omega
    have hreq : mmReqOrder s.mm.pool size ≤ b.ord :=
      max_le (h.inv.minOrder_le b (Or.inr hbF)) (hr ▸ hord)
    have hb0 := hF b hbF hreq
    obtain ⟨hfree, hrec⟩ := (h.inv.freeBlk_iff (h.inv.tiling.aligned b (Or.inr hbF))
      (h.inv.minOrder_le b (Or.inr hbF)) (h.inv.off_lt (Or.inr hbF))).mpr hbF
    rw [hb0, Nat.add_zero] at hfree hrec
    refine ⟨h.inv.allocBlks_eq_zero_iff.not.mpr hL, hfree, ?_⟩
    rw [hrec]
    simpa only [Blk.stop, hb0, Nat.zero_add] using hin.2

end MmRun

/-- **Completeness and conservation.**  In every run of requests and frees of live blocks,
nothing of the pool is lost, and what a refused request would have fitted into is the free block
at the base. -/
theorem mmSystem_complete (A : MmArea) {s : MmState}
    (h : (mmSystem A).Reachable MmLiveFrees s) : MmComplete s := by
  obtain ⟨F, hrun⟩ := MmRun.of_reachable h
  exact ⟨hrun.conserved, fun _ h0 hnone _ hr hal hstop hun =>
    hrun.refused h0 hnone hr hal hstop hun⟩

theorem mmSystem_complete_run : MmComplete
    ([.alloc 8, .alloc 8, .free 0x1000].foldl mmStep (mmFresh mmArea16)) :=
  mmSystem_complete mmArea16 (mmFold_reachable _ (mmFresh_reachable (by decide)) (by
    simp only [MmOk, MmLiveFrees]
    decide))

/-- **What is out of reach.**  Two blocks are taken from a pool of two, and the one at the base
is released.  No free list holds it, the blocks in reach no longer make up the pool, and the
next request is refused although the block is unused. -/
theorem mmSystem_base_lost : ∃ s, (mmSystem mmArea16).Reachable MmLiveFrees s ∧
    (¬ ∃ xs, (∀ k ≤ s.mm.pool.maxOrder, IsFreeList s.mm.pool k (xs k)) ∧
      s.mm.pool.allocBlks +
        (if s.mm.pool.allocBlks = 0 then s.mm.pool.nBlks else linkedBlks s.mm.pool xs) =
          s.mm.pool.nBlks) ∧
    (mmAlloc s.mm 8).2 = none ∧ ∃ r : Blk, r.ord = ilog2 (roundupPowOfTwo 8) ∧ r.Aligned ∧
      r.stop ≤ 2 ^ s.mm.pool.maxOrder ∧ s.Unused r := by
  have hreach : (mmSystem mmArea16).Reachable MmLiveFrees
      ([.alloc 8, .alloc 8, .free 0x1000].foldl mmStep (mmFresh mmArea16)) :=
    mmFold_reachable _ (mmFresh_reachable (by decide)) (by
      simp only [MmOk, MmLiveFrees]
      decide)
  refine ⟨_, hreach, ?_, by decide, ⟨0, 3⟩, by decide, Nat.dvd_zero _, by decide, ?_⟩
  · rintro ⟨xs, hxs, hsum⟩
    obtain ⟨F, hrun⟩ := MmRun.of_reachable hreach
    obtain ⟨ys, hys, hsum'⟩ := hrun.conserved
    -- the lists are the same ones, so the block at the base is what is missing
    rw [hrun.inv.linkedBlks_eq hys, ← hrun.inv.linkedBlks_eq hxs] at hsum'
    have halloc : (List.foldl mmStep (mmFresh mmArea16)
        [.alloc 8, .alloc 8, .free 0x1000]).mm.pool.allocBlks = 1 := by decide
    have hbase : baseBlks (List.foldl mmStep (mmFresh mmArea16)
        [.alloc 8, .alloc 8, .free 0x1000]).mm.pool = 1 := by decide
    rw [halloc] at hsum hsum'
    rw [hbase] at hsum'
    rw [if_neg (by norm_num)] at hsum
    omega
  · simp only [MmState.Unused]
    decide

end FlightOs
