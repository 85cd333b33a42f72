/-
# Releasing a block: `mm_merge_blk`, `mm_upmerge_blks`

A released block climbs: as long as its buddy is a free block of the same order, the two are
merged and the parent climbs on.  `Climb` records the whole loop as a relation between the pool
before and after, with the block that arrived and the blocks that are still free; what a climb
does to each store is then proved by one induction each.

The order array needs care.  `mm_merge_blk` clears the entry of the upper block only when that
is the free one: when the block being released is the upper one, the pointer exchange
`t = blk; blk = n; n = blk` leaves both pointers at the lower block, so the upper block's entry
survives inside the merged block (`mergedOrders`).  `MergesBelow` is the condition that some
merge of the climb is of this kind, and `Climb.stale` and `Climb.clean` say that it decides
whether the order array stays clean.
-/
import FlightOs.Mm.Inv

namespace FlightOs

/-! ## 1. One merge -/

/-- The order array after a block has been merged with its buddy. -/
def mergedOrders (ord : Nat → Nat) (g : Nat) (c : Blk) : Nat → Nat :=
  if c.buddy.off < c.off then Function.update ord (c.buddy.off / 2 ^ g) (c.ord + 1)
  else Function.update (Function.update ord (c.buddy.off / 2 ^ g) 0) (c.off / 2 ^ g) (c.ord + 1)

section Merge

variable {mp : MmPool} {L F : Finset Blk} {c : Blk}

/-- A free block's link holds no null pointer. -/
theorem Core.link_ne_none {B : Finset Blk} (h : Core mp B F) {b : Blk} (hb : b ∈ F)
    (hlt : b.ord < mp.maxOrder) :
    (mp.links (.blk (mp.base + b.off))).prev ≠ none ∧
      (mp.links (.blk (mp.base + b.off))).next ≠ none := by
  by_cases h0 : b.off = 0
  · have := (h.lists.baseLink b hb h0 hlt).ne_none List.mem_cons_self
    rw [h0, Nat.add_zero]
    exact this.symm
  · obtain ⟨xs, hxs, hmem⟩ := h.lists.lists b.ord hlt.le
    have hx : mp.base + b.off ∈ xs := (hmem _).mpr ⟨b, hb, rfl, h0, rfl⟩
    have := hxs.ne_none (x := .blk (mp.base + b.off))
      (List.mem_cons_of_mem _ (List.mem_map.mpr ⟨_, hx, rfl⟩))
    exact this.symm

/-- Initialising the link of a busy block keeps the invariant. -/
theorem Core.initBlk (h : Core mp (insert c L) F) :
    Core { mp with links := initListHead mp.links (.blk (mp.base + c.off)) } (insert c L) F where
  geom := h.geom.same ⟨rfl, rfl, rfl, rfl⟩
  tiling := h.tiling
  disj := h.disj
  minOrder_le := h.minOrder_le
  bits := h.bits
  orders := h.orders
  lists := h.lists.initBlk (fun b hb e => by
    have hc : c ∈ insert c L := Finset.mem_insert_self _ _
    have hbc := h.uniq (Or.inr hb) (Or.inl hc) e
    exact h.disj c hc (hbc ▸ hb))
  lone := h.lone

/-- The neighbour that the merge looks at is the buddy, and it is tested with the block's own
link already initialised. -/
theorem Core.neighbour (h : Core mp (insert c L) F) (hlt : c.ord < mp.maxOrder) :
    mmFindNeighbour mp (mp.base + c.off) c.ord = mp.base + c.buddy.off ∧
      c.buddy.Aligned ∧ mp.minOrder ≤ c.buddy.ord ∧ c.buddy.off < 2 ^ mp.maxOrder := by
  have hc : c ∈ insert c L ∨ c ∈ F := Or.inl (Finset.mem_insert_self _ _)
  obtain ⟨hn, hnlt⟩ := mmFindNeighbour_eq h.geom (h.off_lt hc) hlt
  exact ⟨hn, Blk.buddy_aligned (h.tiling.aligned c hc), h.minOrder_le c hc, hnlt⟩

/-- **No merge**: the buddy is not a free block. -/
theorem mmMergeBlk_none (h : Core mp (insert c L) F) (hlt : c.ord < mp.maxOrder)
    (hb : c.buddy ∉ F) :
    mmMergeBlk mp (mp.base + c.off) c.ord =
      ({ mp with links := initListHead mp.links (.blk (mp.base + c.off)) }, none) := by
  obtain ⟨hn, hal, hmin, hnlt⟩ := h.neighbour hlt
  have hfree := (h.freeBlk_iff hal hmin hnlt).not.mpr hb
  simp only [mmMergeBlk, mmFindNeighbour_links, mmBlkFree_links, mmBlkGetAllocOrder_links, hn]
  by_cases hf : mmBlkFree mp (mp.base + c.buddy.off) = true
  · rw [if_neg (by simp [hf]), if_pos (fun e : _ = c.ord => hfree ⟨hf, e⟩)]
  · rw [if_pos (by simp [hf])]

/-- The stores after a merge. -/
def mergedPool (mp : MmPool) (c : Blk) : MmPool :=
  { mp with
    links := listDel (initListHead mp.links (.blk (mp.base + c.off))) (.blk (mp.base + c.buddy.off))
    allocOrder := mergedOrders mp.allocOrder mp.minOrder c
    blkFree := Function.update (Function.update mp.blkFree (c.buddy.off / 2 ^ mp.minOrder) false)
      (c.parent.off / 2 ^ mp.minOrder) false }

/-- **A merge**: the buddy is a free block. -/
theorem mmMergeBlk_some (h : Core mp (insert c L) F) (hlt : c.ord < mp.maxOrder)
    (hb : c.buddy ∈ F) :
    mmMergeBlk mp (mp.base + c.off) c.ord = (mergedPool mp c, some (mp.base + c.parent.off)) := by
  have hc : c ∈ insert c L ∨ c ∈ F := Or.inl (Finset.mem_insert_self _ _)
  obtain ⟨hn, hal, hmin, hnlt⟩ := h.neighbour hlt
  obtain ⟨hfree, hord⟩ := (h.freeBlk_iff hal hmin hnlt).mpr hb
  have hlink := h.initBlk.link_ne_none hb hlt
  have hidx := h.idx_eq hc
  have hidx' := h.idx_eq (Or.inr hb)
  simp only [mmBlkIdx] at hidx hidx'
  have hmax := h.geom.maxOrder_lt
  have hadd : wadd c.ord 1 % 256 = c.ord + 1 := by
    rw [wadd_of_lt (b := 1) (by omega)]
    exact Nat.mod_eq_of_lt (by omega)
  simp only [mmMergeBlk, mmFindNeighbour_links, mmBlkFree_links, mmBlkGetAllocOrder_links, hn]
  rw [if_neg (by simp [hfree]), if_neg (fun e => e hord),
    if_neg (by rintro (e | e); exacts [hlink.1 e, hlink.2 e])]
  have hpos := c.size_pos
  rcases Blk.buddy_off (h.tiling.aligned c hc) with ⟨-, ho⟩ | ⟨-, ho⟩
  · have hlo : ¬ mp.base + c.buddy.off < mp.base + c.off := by omega
    have hp : c.parent.off = c.off := Nat.min_eq_left (by omega)
    have hord' : mergedOrders mp.allocOrder mp.minOrder c =
        Function.update (Function.update mp.allocOrder (c.buddy.off / 2 ^ mp.minOrder) 0)
          (c.off / 2 ^ mp.minOrder) (c.ord + 1) := if_neg (by omega)
    simp only [if_neg hlo, mmBlkSetAllocOrder, mmMarkAlloc, mergedPool, hord', hp, hadd, hidx,
      hidx', mmBlkIdx, Nat.zero_mod]
  · have hlt' : c.buddy.off < c.off := by omega
    have hlo : mp.base + c.buddy.off < mp.base + c.off := Nat.add_lt_add_left hlt' _
    have hp : c.parent.off = c.buddy.off := Nat.min_eq_right hlt'.le
    have hord' : mergedOrders mp.allocOrder mp.minOrder c =
        Function.update mp.allocOrder (c.buddy.off / 2 ^ mp.minOrder) (c.ord + 1) := if_pos hlt'
    simp only [if_pos hlo, mmBlkSetAllocOrder, mmMarkAlloc, mergedPool, hord', hp, hadd,
      hidx', mmBlkIdx, Function.update_idem]

/-- The blocks that take no part in a merge start elsewhere. -/
theorem Core.apart (h : Core mp (insert c L) F) (hcL : c ∉ L) (hb : c.buddy ∈ F) {b : Blk}
    (hbm : b ∈ L ∨ b ∈ F.erase c.buddy) : b.off ≠ c.off ∧ b.off ≠ c.buddy.off := by
  have hc : c ∈ insert c L := Finset.mem_insert_self _ _
  rcases hbm with hbL | hbF
  · have hbB : b ∈ insert c L := Finset.mem_insert_of_mem hbL
    refine ⟨fun e => hcL ?_, fun e => h.disj b hbB ?_⟩
    · rwa [h.uniq (Or.inl hbB) (Or.inl hc) e] at hbL
    · rwa [h.uniq (Or.inl hbB) (Or.inr hb) e]
  · obtain ⟨hne, hbF⟩ := Finset.mem_erase.mp hbF
    refine ⟨fun e => h.disj c hc ?_, fun e => hne ?_⟩
    · rwa [h.uniq (Or.inr hbF) (Or.inl hc) e] at hbF
    · exact h.uniq (Or.inr hbF) (Or.inr hb) e

theorem parent_off (c : Blk) : c.parent.off = c.off ∨ c.parent.off = c.buddy.off :=
  min_choice _ _

theorem mergedOrders_of_ne {ord : Nat → Nat} {g i : Nat} (h : i ≠ c.off / 2 ^ g)
    (h' : i ≠ c.buddy.off / 2 ^ g) : mergedOrders ord g c i = ord i := by
  unfold mergedOrders
  split
  · rw [Function.update_of_ne h']
  · rw [Function.update_of_ne h, Function.update_of_ne h']

theorem mergedOrders_parent (ord : Nat → Nat) (g : Nat) :
    mergedOrders ord g c (c.parent.off / 2 ^ g) = c.parent.ord := by
  unfold mergedOrders Blk.parent
  split
  · next hlt => rw [Nat.min_eq_right hlt.le, Function.update_self]
  · next hlt => rw [Nat.min_eq_left (not_lt.mp hlt), Function.update_self]

/-- The recorded orders of blocks that take no part in a merge survive it. -/
theorem Core.orders_merged (h : Core mp (insert c L) F) (hcL : c ∉ L) (hb : c.buddy ∈ F)
    {S : Finset Blk} (hS : ∀ b ∈ S, b ∈ L ∨ b ∈ F.erase c.buddy)
    (ho : OrdersOk mp.allocOrder mp.minOrder S) :
    OrdersOk (mergedOrders mp.allocOrder mp.minOrder c) mp.minOrder S := by
  intro b hbS
  have hc : c ∈ insert c L ∨ c ∈ F := Or.inl (Finset.mem_insert_self _ _)
  have hbm : b ∈ insert c L ∨ b ∈ F :=
    (hS b hbS).imp (Finset.mem_insert_of_mem) (Finset.mem_of_mem_erase)
  obtain ⟨h1, h2⟩ := h.apart hcL hb (hS b hbS)
  rw [mergedOrders_of_ne, ho b hbS]
  · exact (off_div_inj (h.off_dvd hbm) (h.off_dvd hc)).not.mpr h1
  · exact (off_div_inj (h.off_dvd hbm) (h.off_dvd (Or.inr hb))).not.mpr h2

/-- **A merge keeps the invariant**: the parent takes the place of the two buddies. -/
theorem Core.merged (h : Core mp (insert c L) F) (hcL : c ∉ L) (hlt : c.ord < mp.maxOrder)
    (hb : c.buddy ∈ F) : Core (mergedPool mp c) (insert c.parent L) (F.erase c.buddy) := by
  have hc : c ∈ insert c L := Finset.mem_insert_self _ _
  have hcF : c ∉ F := h.disj c hc
  have hal := h.tiling.aligned c (Or.inl hc)
  have hpF : ∀ b ∈ F.erase c.buddy, b.off ≠ c.parent.off := by
    intro b hbF e
    obtain ⟨h1, h2⟩ := h.apart hcL hb (Or.inr hbF)
    exact (parent_off c).elim (fun e' => h1 (e.trans e')) (fun e' => h2 (e.trans e'))
  refine ⟨h.geom.same ⟨rfl, rfl, rfl, rfl⟩, ?tiling, ?disj, ?min, ?bits, ?orders, ?lists,
    ?lone⟩
  case tiling =>
    refine h.tiling.merge (b := c) (Or.inl hc) (Or.inr hb) (fun d => ?_)
    have h1 : c.buddy ∉ L := fun e => h.disj _ (Finset.mem_insert_of_mem e) hb
    have h2 : d ∈ L → d ≠ c ∧ d ≠ c.buddy :=
      fun hd => ⟨fun e => hcL (e ▸ hd), fun e => h1 (e ▸ hd)⟩
    have h3 : d ∈ F → d ≠ c := fun hd e => hcF (e ▸ hd)
    simp only [Set.mem_ofPred_eq, Finset.mem_insert, Finset.mem_erase]
    tauto
  case disj =>
    intro b hbm hbF
    rcases Finset.mem_insert.mp hbm with rfl | hbL
    · exact hpF _ hbF rfl
    · exact h.disj b (Finset.mem_insert_of_mem hbL) (Finset.mem_of_mem_erase hbF)
  case min =>
    rintro b (hbm | hbF)
    · rcases Finset.mem_insert.mp hbm with rfl | hbL
      · exact (h.minOrder_le c (Or.inl hc)).trans (Nat.le_succ _)
      · exact h.minOrder_le b (Or.inl (Finset.mem_insert_of_mem hbL))
    · exact h.minOrder_le b (Or.inr (Finset.mem_of_mem_erase hbF))
  case bits =>
    have herase := h.bits.erase (h.off_dvd (Or.inr hb)) (fun b hbF e => h.uniqF b hbF _ hb e)
    refine herase.clear ?_ hpF
    rcases parent_off c with e | e
    · exact e ▸ h.off_dvd (Or.inl hc)
    · exact e ▸ h.off_dvd (Or.inr hb)
  case orders =>
    exact h.orders_merged hcL hb (fun b => Or.inr) (h.orders.mono (Finset.erase_subset _ _))
  case lists =>
    by_cases h0 : c.buddy.off = 0
    · exact h.initBlk.lists.delBase h.uniqF hb h0 hlt
    · exact h.initBlk.lists.del h.uniqF hb h0 hlt.le
  case lone =>
    intro b hbF hlt' hbud
    exact h.lone b (Finset.mem_of_mem_erase hbF) hlt' (Finset.mem_of_mem_erase hbud)

/-- **What a merge does to the order array.**  It stays clean exactly if the released block is
the lower one. -/
theorem Core.merged_clean_iff (h : Core mp (insert c L) F) (hcL : c ∉ L) (hb : c.buddy ∈ F)
    (hord : mp.allocOrder (c.off / 2 ^ mp.minOrder) ≠ 0) :
    MmClean (mergedPool mp c) (insert c.parent L) (F.erase c.buddy) ↔
      MmClean mp (insert c L) F ∧ ¬ c.buddy.off < c.off := by
  have hc : c ∈ insert c L ∨ c ∈ F := Or.inl (Finset.mem_insert_self _ _)
  have hcd := h.off_dvd hc
  have hbd := h.off_dvd (Or.inr hb)
  have hpd : 2 ^ mp.minOrder ∣ c.parent.off := by
    rcases parent_off c with e | e <;> rwa [e]
  have hne : c.off ≠ c.buddy.off := by
    intro e
    exact Blk.buddy_ne (h.tiling.aligned c hc) (h.uniq (Or.inr hb) hc e.symm)
  show OrdersClean (mergedOrders mp.allocOrder mp.minOrder c) mp.nBlks mp.minOrder _ _ ↔ _
  constructor
  · intro hclean
    refine ⟨fun i hi hi0 => ?_, fun hlt => ?_⟩
    · by_cases hic : i = c.off / 2 ^ mp.minOrder
      · exact ⟨c, hc, (off_eq_mul_iff hcd).mpr hic.symm⟩
      by_cases hib : i = c.buddy.off / 2 ^ mp.minOrder
      · exact ⟨c.buddy, Or.inr hb, (off_eq_mul_iff hbd).mpr hib.symm⟩
      obtain ⟨b, hbm, hbo⟩ := hclean i hi
        (by rwa [mergedOrders_of_ne hic hib])
      rcases hbm with hbm | hbF
      · rcases Finset.mem_insert.mp hbm with rfl | hbL
        · have hio := (off_eq_mul_iff hpd).mp hbo
          rcases parent_off c with e | e <;> rw [e] at hio
          · exact absurd hio.symm hic
          · exact absurd hio.symm hib
        · exact ⟨b, Or.inl (Finset.mem_insert_of_mem hbL), hbo⟩
      · exact ⟨b, Or.inr (Finset.mem_of_mem_erase hbF), hbo⟩
    · -- the entry of the upper block survives, inside the parent
      have hpo : c.parent.off = c.buddy.off := Nat.min_eq_right hlt.le
      have hkept : mergedOrders mp.allocOrder mp.minOrder c (c.off / 2 ^ mp.minOrder) =
          mp.allocOrder (c.off / 2 ^ mp.minOrder) := by
        rw [mergedOrders, if_pos hlt, Function.update_of_ne]
        exact (off_div_inj hcd hbd).not.mpr hne
      obtain ⟨b, hbm, hbo⟩ := hclean _ (h.idx_lt hc) (hkept ▸ hord)
      rw [Nat.div_mul_cancel hcd] at hbo
      rcases hbm with hbm | hbF
      · rcases Finset.mem_insert.mp hbm with rfl | hbL
        · exact hne (hbo.symm.trans hpo)
        · exact (h.apart hcL hb (Or.inl hbL)).1 hbo
      · exact (h.apart hcL hb (Or.inr hbF)).1 hbo
  · rintro ⟨hclean, hlt⟩ i hi hi0
    have hpo : c.parent.off = c.off := Nat.min_eq_left (not_lt.mp hlt)
    by_cases hic : i = c.off / 2 ^ mp.minOrder
    · refine ⟨c.parent, Or.inl (Finset.mem_insert_self _ _), ?_⟩
      rw [hpo]
      exact (off_eq_mul_iff hcd).mpr hic.symm
    have hib : i ≠ c.buddy.off / 2 ^ mp.minOrder := by
      rintro rfl
      refine hi0 ?_
      rw [mergedOrders, if_neg hlt, Function.update_of_ne hic, Function.update_self]
    rw [mergedOrders_of_ne hic hib] at hi0
    obtain ⟨b, hbm, hbo⟩ := hclean i hi hi0
    refine ⟨b, ?_, hbo⟩
    rcases hbm with hbm | hbF
    · rcases Finset.mem_insert.mp hbm with rfl | hbL
      · exact absurd ((off_eq_mul_iff hcd).mp hbo).symm hic
      · exact Or.inl (Finset.mem_insert_of_mem hbL)
    · refine Or.inr (Finset.mem_erase.mpr ⟨?_, hbF⟩)
      rintro rfl
      exact hib ((off_eq_mul_iff hbd).mp hbo).symm

end Merge

/-! ## 2. The climb -/

/-- The climb of `c` over the free blocks `F` takes in a lower buddy within `n` merges. -/
def Blk.MergesBelow (F : Finset Blk) : Nat → Blk → Prop
  | 0, _ => False
  | n + 1, c => c.buddy ∈ F ∧ (c.buddy.off < c.off ∨ Blk.MergesBelow F n c.parent)

/-- Blocks of lower order than the one that climbs do not matter. -/
theorem Blk.mergesBelow_erase {F : Finset Blk} {d : Blk} : ∀ {n : Nat} {c : Blk},
    d.ord < c.ord → (Blk.MergesBelow (F.erase d) n c ↔ Blk.MergesBelow F n c)
  | 0, _, _ => Iff.rfl
  | n + 1, c, h => by
    have hne : c.buddy ≠ d := by
      rintro rfl
      exact absurd h (lt_irrefl _)
    rw [Blk.MergesBelow, Blk.MergesBelow, Finset.mem_erase, and_iff_right hne,
      Blk.mergesBelow_erase (n := n) (c := c.parent) (h.trans (Nat.lt_succ_self _))]

/-- What the loop leaves behind: the block that arrived and the blocks still free. -/
structure Climbed (L : Finset Blk) (mp : MmPool) (c : Blk) (F : Finset Blk) (n : Nat)
    (mp' : MmPool) (c' : Blk) (F' : Finset Blk) : Prop where
  core : Core mp' (insert c' L) F'
  notMem : c' ∉ L
  same : MmSame mp mp'
  allocBlks : mp'.allocBlks = mp.allocBlks
  live : OrdersOk mp'.allocOrder mp'.minOrder L
  lone : c'.ord < mp'.maxOrder → c'.buddy ∉ F'
  baseLink : c'.off = 0 → c'.ord < mp'.maxOrder → Ring mp'.links (.blk mp'.base) []
  clean : MmClean mp' (insert c' L) F' ↔ MmClean mp (insert c L) F ∧ ¬ Blk.MergesBelow F n c

/-- **The loop.**  By induction on the number of orders left: either the buddy is not free and
the block has arrived, or one merge leads to the parent. -/
theorem mmUpmergeLoop_spec {L : Finset Blk} : ∀ {n : Nat} {mp : MmPool} {c : Blk}
    {F : Finset Blk}, Core mp (insert c L) F → c ∉ L → n = mp.maxOrder - c.ord →
    OrdersOk mp.allocOrder mp.minOrder L → mp.allocOrder (c.off / 2 ^ mp.minOrder) = c.ord →
    ∃ mp' c' F', mmUpmergeLoop n mp (mp.base + c.off) c.ord = (mp', mp.base + c'.off, c'.ord) ∧
      Climbed L mp c F n mp' c' F'
  | 0, mp, c, F, h, hcL, hn, hlive, hord => by
    have hc : c ∈ insert c L ∨ c ∈ F := Or.inl (Finset.mem_insert_self _ _)
    have htop : ¬ c.ord < mp.maxOrder := by omega
    refine ⟨mp, c, F, rfl, h, hcL, MmSame.refl mp, rfl, hlive, fun hlt => absurd hlt htop,
      fun _ hlt => absurd hlt htop, ?_⟩
    simp [Blk.MergesBelow]
  | n + 1, mp, c, F, h, hcL, hn, hlive, hord => by
    have hc : c ∈ insert c L ∨ c ∈ F := Or.inl (Finset.mem_insert_self _ _)
    have hlt : c.ord < mp.maxOrder := by omega
    by_cases hb : c.buddy ∈ F
    · have hmin := h.minOrder_le c hc
      have hmin3 := h.geom.minOrder_ge
      have hpL : c.parent ∉ L := by
        intro e
        obtain ⟨h1, h2⟩ := h.apart hcL hb (Or.inl e)
        exact (parent_off c).elim h1 h2
      obtain ⟨mp', c', F', heq, hcl⟩ := mmUpmergeLoop_spec (n := n) (h.merged hcL hlt hb) hpL
        (by simp only [mergedPool, Blk.parent_ord]; omega)
        (h.orders_merged hcL hb (fun b => Or.inl) hlive)
        (mergedOrders_parent mp.allocOrder mp.minOrder)
      refine ⟨mp', c', F', ?_, hcl.core, hcl.notMem, ?_, hcl.allocBlks, hcl.live, hcl.lone,
        hcl.baseLink, ?_⟩
      · rw [mmUpmergeLoop, mmMergeBlk_some h hlt hb]
        exact heq
      · exact (⟨rfl, rfl, rfl, rfl⟩ : MmSame mp (mergedPool mp c)).trans hcl.same
      · rw [hcl.clean, h.merged_clean_iff hcL hb (by omega), Blk.MergesBelow,
          Blk.mergesBelow_erase (d := c.buddy) (c := c.parent) (Nat.lt_succ_self _)]
        tauto
    · refine ⟨{ mp with links := initListHead mp.links (.blk (mp.base + c.off)) }, c, F, ?_,
        h.initBlk, hcL, ⟨rfl, rfl, rfl, rfl⟩, rfl, hlive, fun _ => hb, fun h0 _ => ?_, ?_⟩
      · rw [mmUpmergeLoop, mmMergeBlk_none h hlt hb]
      · rw [h0, Nat.add_zero]
        exact initListHead_ring _ _
      · simp [Blk.MergesBelow, hb, MmClean]

/-! ## 3. The block that arrived -/

section Link

variable {mp : MmPool} {L F : Finset Blk} {c : Blk}

theorem mmLinkFree_eq (h : Core mp (insert c L) F) :
    mmLinkFree mp (mp.base + c.off) c.ord =
      { mp with
        blkFree := Function.update mp.blkFree (c.off / 2 ^ mp.minOrder) true
        allocOrder := Function.update mp.allocOrder (c.off / 2 ^ mp.minOrder) c.ord
        links := if c.off = 0 then mp.links
          else listAdd mp.links (.blk (mp.base + c.off)) (.blockOrder c.ord) } := by
  have hc : c ∈ insert c L ∨ c ∈ F := Or.inl (Finset.mem_insert_self _ _)
  have hidx := h.idx_eq hc
  have hmax := h.geom.maxOrder_lt
  have hle := h.ord_le hc
  have hmod : c.ord % 256 = c.ord := Nat.mod_eq_of_lt (by omega)
  simp only [mmBlkIdx] at hidx
  simp only [mmLinkFree, mmBlkSetAllocOrder, mmMarkFree, mmBlkIdx, hidx, hmod]
  by_cases h0 : c.off = 0
  · rw [if_neg (by omega), if_pos h0]
  · rw [if_pos (by omega), if_neg h0]

/-- Every other block starts elsewhere. -/
theorem Core.off_ne (h : Core mp (insert c L) F) (hcL : c ∉ L) {b : Blk} (hb : b ∈ L ∨ b ∈ F) :
    b.off ≠ c.off := by
  have hc : c ∈ insert c L := Finset.mem_insert_self _ _
  intro e
  have hbc : b = c := h.uniq (hb.imp_left Finset.mem_insert_of_mem) (Or.inl hc) e
  subst hbc
  exact hb.elim hcL (h.disj b hc)

/-- **The block that arrived joins the free blocks.** -/
theorem Core.linked (h : Core mp (insert c L) F) (hcL : c ∉ L)
    (hlone : c.ord < mp.maxOrder → c.buddy ∉ F)
    (hbase : c.off = 0 → c.ord < mp.maxOrder → Ring mp.links (.blk mp.base) []) :
    Core (mmLinkFree mp (mp.base + c.off) c.ord) L (insert c F) := by
  have hc : c ∈ insert c L := Finset.mem_insert_self _ _
  have hcd := h.off_dvd (Or.inl hc)
  have hF : ∀ b ∈ F, b.off ≠ c.off := fun b hb => h.off_ne hcL (Or.inr hb)
  rw [mmLinkFree_eq h]
  refine ⟨h.geom.same ⟨rfl, rfl, rfl, rfl⟩, ?tiling, ?disj, ?min, ?bits, ?orders, ?lists, ?lone⟩
  case tiling =>
    have hset : {b | b ∈ L ∨ b ∈ insert c F} = {b | b ∈ insert c L ∨ b ∈ F} := by
      ext b
      simp only [Set.mem_ofPred_eq, Finset.mem_insert]
      tauto
    exact hset ▸ h.tiling
  case disj =>
    intro b hbL hbF
    rcases Finset.mem_insert.mp hbF with rfl | hbF
    · exact hcL hbL
    · exact h.disj b (Finset.mem_insert_of_mem hbL) hbF
  case min =>
    rintro b (hbL | hbF)
    · exact h.minOrder_le b (Or.inl (Finset.mem_insert_of_mem hbL))
    · rcases Finset.mem_insert.mp hbF with rfl | hbF
      · exact h.minOrder_le b (Or.inl hc)
      · exact h.minOrder_le b (Or.inr hbF)
  case bits => exact h.bits.insert hcd
  case orders =>
    refine OrdersOk.insert ?_ (Function.update_self _ _ _)
    exact h.orders.update hcd (fun b hb => ⟨h.off_dvd (Or.inr hb), hF b hb⟩)
  case lists =>
    by_cases h0 : c.off = 0
    · simp only [if_pos h0]
      exact h.lists.addBase h0 (fun b hb e => hF b hb (e.trans h0.symm)) (hbase h0)
    · simp only [if_neg h0]
      exact h.lists.add h.uniqF h0 (h.ord_le (Or.inl hc)) hF
  case lone =>
    intro b hb hlt
    have hcc : c.buddy ≠ c := Blk.buddy_ne (h.tiling.aligned c (Or.inl hc))
    rw [Finset.mem_insert, not_or]
    rcases Finset.mem_insert.mp hb with rfl | hbF
    · exact ⟨hcc, hlone hlt⟩
    · refine ⟨fun e => hlone ?_ ?_, h.lone b hbF hlt⟩
      · rw [← e]
        exact hlt
      · rw [← e, Blk.buddy_buddy]
        exact hbF

/-- Linking writes the entry of the arrived block only. -/
theorem Core.linked_orders (h : Core mp (insert c L) F) (hcL : c ∉ L)
    (hlive : OrdersOk mp.allocOrder mp.minOrder L) :
    OrdersOk (mmLinkFree mp (mp.base + c.off) c.ord).allocOrder mp.minOrder L := by
  have hc : c ∈ insert c L := Finset.mem_insert_self _ _
  rw [mmLinkFree_eq h]
  exact hlive.update (h.off_dvd (Or.inl hc)) (fun b hb =>
    ⟨h.off_dvd (Or.inl (Finset.mem_insert_of_mem hb)), h.off_ne hcL (Or.inl hb)⟩)

theorem Core.linked_clean_iff (h : Core mp (insert c L) F) :
    MmClean (mmLinkFree mp (mp.base + c.off) c.ord) L (insert c F) ↔
      MmClean mp (insert c L) F := by
  have hc : c ∈ insert c L ∨ c ∈ F := Or.inl (Finset.mem_insert_self _ _)
  have hmem : ∀ b, (b ∈ L ∨ b ∈ insert c F) ↔ (b ∈ insert c L ∨ b ∈ F) := by
    intro b
    simp only [Finset.mem_insert]
    tauto
  rw [mmLinkFree_eq h]
  show OrdersClean (Function.update _ _ _) mp.nBlks mp.minOrder _ _ ↔ _
  simp only [MmClean, OrdersClean, hmem]
  refine forall_congr' (fun i => imp_congr_right (fun hi => ?_))
  by_cases hic : i = c.off / 2 ^ mp.minOrder
  · have hst : ∃ b, (b ∈ insert c L ∨ b ∈ F) ∧ b.off = i * 2 ^ mp.minOrder :=
      ⟨c, hc, (off_eq_mul_iff (h.off_dvd hc)).mpr hic.symm⟩
    exact iff_of_true (fun _ => hst) (fun _ => hst)
  · rw [Function.update_of_ne hic]

end Link

/-! ## 4. `mm_free` on a live block -/

/-- The climb of a block meets a free buddy at a lower address: the first of the free
neighbours of rising order that the merge loop meets, up to the `n`-th, which lies below. -/
def mmMergesBelow (mp : MmPool) : Nat → Nat → Nat → Bool
  | 0, _, _ => false
  | n + 1, blk, order =>
    let nb := mmFindNeighbour mp blk order
    mmBlkFree mp nb && mmBlkGetAllocOrder mp nb == order &&
      (decide (nb < blk) || mmMergesBelow mp n blk (order + 1))

section Free

variable {mp : MmPool} {L F : Finset Blk} {c : Blk}

/-- The condition, read off the pool, is the one on the free blocks. -/
theorem Core.mergesBelow_iff {B : Finset Blk} (h : Core mp B F) : ∀ {n : Nat} {c : Blk},
    c.Aligned → mp.minOrder ≤ c.ord → c.off < 2 ^ mp.maxOrder → c.ord + n ≤ mp.maxOrder →
    (mmMergesBelow mp n (mp.base + c.off) c.ord = true ↔ Blk.MergesBelow F n c)
  | 0, _, _, _, _, _ => by simp [mmMergesBelow, Blk.MergesBelow]
  | n + 1, c, hal, hmin, hlt, hn => by
    obtain ⟨hnb, hnlt⟩ := mmFindNeighbour_eq h.geom hlt (by omega)
    have hfree := h.freeBlk_iff (Blk.buddy_aligned hal) hmin hnlt
    rw [Blk.buddy_ord] at hfree
    simp only [mmMergesBelow, hnb, Blk.MergesBelow, Bool.and_eq_true, beq_iff_eq, Bool.or_eq_true,
      decide_eq_true_iff, Nat.add_lt_add_iff_left, hfree]
    by_cases hlow : c.buddy.off < c.off
    · simp [hlow]
    · -- the parent starts where the block does
      have hpo : c.parent.off = c.off := Nat.min_eq_left (not_lt.mp hlow)
      have ih := h.mergesBelow_iff (n := n) (Blk.parent_aligned hal)
        (hmin.trans (Nat.le_succ c.ord)) (hpo ▸ hlt) (by simp only [Blk.parent_ord]; omega)
      rw [hpo, Blk.parent_ord] at ih
      simp [hlow, ih]

/-- An order in range is left alone for an address in the pool. -/
theorem mmFixupValidate_of_mem (g : MmGeom mp) {a k : Nat} (h1 : mp.minOrder ≤ k)
    (h2 : k ≤ mp.maxOrder) (ha : mp.base ≤ a) (ha' : a < mp.base + 2 ^ mp.maxOrder) :
    mmFixupValidate mp a k = k := by
  have hfits := g.fits
  have hsub : wsub a mp.base = a - mp.base := wsub_of_le (by omega) ha
  have hshl : wshl 1 mp.maxOrder = 2 ^ mp.maxOrder := wshl_one g.maxOrder_lt
  rw [mmFixupValidate, if_neg (by omega), if_neg (by omega), if_neg (by rw [hsub, hshl]; omega),
    if_neg (by omega)]

/-- The climb of the block at `addr`, from its recorded order, meets a free buddy below it. -/
def mmFreeMergesBelow (mp : MmPool) (addr : Nat) : Bool :=
  mmMergesBelow mp (mp.maxOrder - mmBlkGetAllocOrder mp addr) addr (mmBlkGetAllocOrder mp addr)

/-- The recorded order of a live block. -/
theorem MmInv.getAllocOrder (h : MmInv mp L F) {b : Blk} (hb : b ∈ L) :
    mmBlkGetAllocOrder mp (mp.base + b.off) = b.ord := by
  rw [mmBlkGetAllocOrder, h.idx_eq (Or.inl hb), h.live b hb]

/-- **The upward merge of a live block.** -/
theorem mmUpmergeBlks_spec (h : MmInv mp (insert c L) F) (hcL : c ∉ L) :
    ∃ F', Core (mmUpmergeBlks mp (mp.base + c.off)) L F' ∧
      MmSame mp (mmUpmergeBlks mp (mp.base + c.off)) ∧
      (mmUpmergeBlks mp (mp.base + c.off)).allocBlks = mp.allocBlks ∧
      OrdersOk (mmUpmergeBlks mp (mp.base + c.off)).allocOrder mp.minOrder L ∧
      (MmClean (mmUpmergeBlks mp (mp.base + c.off)) L F' ↔
        MmClean mp (insert c L) F ∧ mmFreeMergesBelow mp (mp.base + c.off) = false) := by
  have hc : c ∈ insert c L := Finset.mem_insert_self _ _
  have hord : mmBlkGetAllocOrder mp (mp.base + c.off) = c.ord := h.getAllocOrder hc
  have hle := h.ord_le (Or.inl hc)
  obtain ⟨mp', c', F', heq, hcl⟩ := mmUpmergeLoop_spec (n := mp.maxOrder - c.ord) h.toCore hcL rfl
    (h.live.mono (Finset.subset_insert _ _)) (h.live c hc)
  have hres : mmUpmergeBlks mp (mp.base + c.off) = mmLinkFree mp' (mp'.base + c'.off) c'.ord := by
    rw [mmUpmergeBlks, hord, heq, hcl.same.base]
  have hfields := mmLinkFree_eq hcl.core
  have hbelow : mmFreeMergesBelow mp (mp.base + c.off) = false ↔
      ¬ Blk.MergesBelow F (mp.maxOrder - c.ord) c := by
    rw [mmFreeMergesBelow, hord, ← h.mergesBelow_iff (h.tiling.aligned c (Or.inl hc))
      (h.minOrder_le c (Or.inl hc)) (h.off_lt (Or.inl hc)) (by omega), Bool.not_eq_true]
  rw [hres]
  refine ⟨insert c' F', hcl.core.linked hcl.notMem hcl.lone hcl.baseLink, ?_, ?_, ?_, ?_⟩
  · rw [hfields]
    exact hcl.same.trans ⟨rfl, rfl, rfl, rfl⟩
  · rw [hfields]
    exact hcl.allocBlks
  · rw [← hcl.same.minOrder]
    exact hcl.core.linked_orders hcl.notMem hcl.live
  · rw [hcl.core.linked_clean_iff, hcl.clean, hbelow]

/-- **`mm_free` on a live block**: the block leaves the live ones, the rest of the invariant
stays, and the order array is clean afterwards exactly if it was before and the climb met no
free buddy below. -/
theorem mmFree_live {mm : Mm} (h : MmInv mm.pool (insert c L) F) (hcL : c ∉ L) :
    ∃ F', MmInv (mmFree mm (mm.pool.base + c.off)).pool L F' ∧
      MmSame mm.pool (mmFree mm (mm.pool.base + c.off)).pool ∧
      (MmClean (mmFree mm (mm.pool.base + c.off)).pool L F' ↔ MmClean mm.pool (insert c L) F ∧
        mmFreeMergesBelow mm.pool (mm.pool.base + c.off) = false) := by
  have hc : c ∈ insert c L := Finset.mem_insert_self _ _
  have hord : mmBlkGetAllocOrder mm.pool (mm.pool.base + c.off) = c.ord := h.getAllocOrder hc
  have hfree : mmBlkFree mm.pool (mm.pool.base + c.off) = false := by
    rw [Bool.eq_false_iff]
    exact (h.free_iff (Or.inl hc)).not.mpr (h.disj c hc)
  have hmin := h.minOrder_le c (Or.inl hc)
  have hle := h.ord_le (Or.inl hc)
  have hoff := h.off_lt (Or.inl hc)
  have hpos := h.geom.base_pos
  have hmin3 := h.geom.minOrder_ge
  have hmax := h.geom.maxOrder_lt
  have hvalid : mmBlkAddrValid mm.pool (mm.pool.base + c.off) = true :=
    (mmBlkAddrValid_iff h.geom).mpr ⟨Nat.le_add_right _ _, Nat.add_lt_add_left hoff _⟩
  have hfix : mmFixupValidate mm.pool (mm.pool.base + c.off) c.ord = c.ord :=
    mmFixupValidate_of_mem h.geom hmin hle (Nat.le_add_right _ _) (Nat.add_lt_add_left hoff _)
  obtain ⟨F', hcore, hsame, halloc, hlive, hclean⟩ := mmUpmergeBlks_spec h hcL
  have hshl : wshl 1 (c.ord - (mmUpmergeBlks mm.pool (mm.pool.base + c.off)).minOrder) =
      2 ^ (c.ord - mm.pool.minOrder) := by
    rw [hsame.minOrder]
    exact wshl_one (by omega)
  have hres : (mmFree mm (mm.pool.base + c.off)).pool =
      { mmUpmergeBlks mm.pool (mm.pool.base + c.off) with
        allocBlks := wsub mm.pool.allocBlks (2 ^ (c.ord - mm.pool.minOrder)) } := by
    rw [mmFree, if_neg (by omega), if_neg (by simp [hvalid]), if_neg (by simp [hfree])]
    simp only [hord, hfix]
    rw [if_neg (by omega), if_neg (by simp [isErrValue_of_lt (k := c.ord) (by omega)]), hshl, halloc]
  -- the count of the released block is part of the sum
  have hsum := h.sum_blks
  have halc := h.alloc
  rw [Finset.sum_insert hcL] at hsum halc
  have hn : mm.pool.nBlks < 2 ^ 32 := by
    rw [h.geom.nBlks]
    exact Nat.pow_lt_pow_right (by norm_num) (by omega)
  have hsub : wsub mm.pool.allocBlks (2 ^ (c.ord - mm.pool.minOrder)) =
      ∑ b ∈ L, 2 ^ (b.ord - mm.pool.minOrder) := by
    rw [wsub_of_le (by omega) (by omega)]
    omega
  rw [hres, hsub]
  refine ⟨F', ⟨⟨hcore.geom.same ⟨rfl, rfl, rfl, rfl⟩, hcore.tiling, hcore.disj,
    hcore.minOrder_le, hcore.bits, hcore.orders, hcore.lists, hcore.lone⟩, ?_, ?_⟩, ?_, ?_⟩
  · show OrdersOk _ (mmUpmergeBlks mm.pool (mm.pool.base + c.off)).minOrder L
    rw [hsame.minOrder]
    exact hlive
  · show _ = ∑ b ∈ L, 2 ^ (b.ord - (mmUpmergeBlks mm.pool (mm.pool.base + c.off)).minOrder)
    rw [hsame.minOrder]
  · exact hsame.trans ⟨rfl, rfl, rfl, rfl⟩
  · exact hclean

end Free

end FlightOs
