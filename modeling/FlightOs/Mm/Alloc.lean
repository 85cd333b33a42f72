/-
# Taking a block: `mm_alloc`

An allocation takes the first block of the lowest order that has one, and cuts it down: each
turn of the loop `while (order < i--)` makes the upper half of what is left a free block, so the
caller gets the lower end (`mmSplitLoop_spec`).  With nothing allocated the lists are not looked
at, and the block at the base is taken at the maximum order; `Tiling.eq_single_of_lone` says
that it is then the only block there is.

`mmAlloc_some` and `mmAlloc_none` are what a run needs: which block joins the live ones, and
which blocks are left when none does.
-/
import FlightOs.Mm.Inv

namespace FlightOs

/-! ## 1. Splitting -/

section Split

variable {mp : MmPool} {L F : Finset Blk} {b : Blk}

/-- The stores after the upper half of a block has been split off. -/
theorem mmSplitBlk_eq (g : MmGeom mp) (h : b.off + 2 ^ (b.ord + 1) ≤ 2 ^ mp.maxOrder) :
    mmSplitBlk mp (mp.base + b.off) b.ord =
      { mp with
        allocOrder := Function.update mp.allocOrder (b.upper.off / 2 ^ mp.minOrder) b.ord
        blkFree := Function.update mp.blkFree (b.upper.off / 2 ^ mp.minOrder) true
        links := listAdd mp.links (.blk (mp.base + b.upper.off)) (.blockOrder b.ord) } := by
  have hfits := g.fits
  have hmax := g.maxOrder_lt
  have h2 : 2 ^ (b.ord + 1) = 2 ^ b.ord + 2 ^ b.ord := by rw [pow_succ]; omega
  have hpos := b.size_pos
  have hlt : b.ord < mp.maxOrder := by
    have : 2 ^ (b.ord + 1) ≤ 2 ^ mp.maxOrder := by omega
    exact (Nat.pow_le_pow_iff_right (by norm_num)).mp this
  have hadd : wadd (mp.base + b.off) (wshl 1 b.ord) = mp.base + b.upper.off := by
    rw [wshl_one (hlt.trans hmax), wadd_of_lt (by omega), Blk.upper, Nat.add_assoc]
  have hidx : mmBlkIdx mp (mp.base + b.upper.off) = b.upper.off / 2 ^ mp.minOrder :=
    mmBlkIdx_eq g (by simp only [Blk.upper]; omega)
  have hmod : b.ord % 256 = b.ord := Nat.mod_eq_of_lt (by omega)
  simp only [mmBlkIdx] at hidx
  simp only [mmSplitBlk, mmBlkSetAllocOrder, mmMarkFree, mmBlkIdx, hadd, hidx, hmod]

/-- What a busy block leaves alone when its upper half becomes free: nothing starts at the upper
half, and the lower half is no block yet. -/
theorem Core.upper_apart (h : Core mp (insert ⟨b.off, b.ord + 1⟩ L) F)
    (hbL : ⟨b.off, b.ord + 1⟩ ∉ L) {d : Blk} (hd : d ∈ L ∨ d ∈ F) :
    d.off ≠ b.off ∧ d.off ≠ b.upper.off := by
  have hw : (⟨b.off, b.ord + 1⟩ : Blk) ∈ insert ⟨b.off, b.ord + 1⟩ L := Finset.mem_insert_self _ _
  have hdm : d ∈ insert (⟨b.off, b.ord + 1⟩ : Blk) L ∨ d ∈ F :=
    hd.imp_left Finset.mem_insert_of_mem
  have hne : d ≠ ⟨b.off, b.ord + 1⟩ := by
    rintro rfl
    exact hd.elim hbL (h.disj _ hw)
  have h2 : 2 ^ (b.ord + 1) = 2 ^ b.ord + 2 ^ b.ord := by rw [pow_succ]; omega
  have hpos := b.size_pos
  have hdpos := d.size_pos
  have := h.tiling.disjoint hdm (Or.inl hw) hne
  simp only [Blk.stop, h2] at this
  simp only [Blk.upper]
  omega

/-- **One split.** -/
theorem Core.split (h : Core mp (insert ⟨b.off, b.ord + 1⟩ L) F)
    (hbL : ⟨b.off, b.ord + 1⟩ ∉ L) (hmin : mp.minOrder ≤ b.ord) :
    Core (mmSplitBlk mp (mp.base + b.off) b.ord) (insert b L) (insert b.upper F) := by
  have hw : (⟨b.off, b.ord + 1⟩ : Blk) ∈ insert ⟨b.off, b.ord + 1⟩ L := Finset.mem_insert_self _ _
  have hal : 2 ^ (b.ord + 1) ∣ b.off := h.tiling.aligned _ (Or.inl hw)
  have hud : 2 ^ mp.minOrder ∣ b.upper.off :=
    (Nat.pow_dvd_pow 2 hmin).trans (Blk.upper_aligned hal)
  have hord : b.ord + 1 ≤ mp.maxOrder := h.ord_le (Or.inl hw)
  have hF : ∀ d ∈ F, d.off ≠ b.upper.off := fun d hd => (h.upper_apart hbL (Or.inr hd)).2
  have hbF : b ∉ F := fun e => (h.upper_apart hbL (Or.inr e)).1 rfl
  have hbu : b.upper.buddy = b := by rw [Blk.upper_eq_buddy hal, Blk.buddy_buddy]
  have hu0 : b.upper.off ≠ 0 := (Nat.add_pos_right b.off b.size_pos).ne'
  rw [mmSplitBlk_eq h.geom (h.stop_le (Or.inl hw))]
  refine ⟨h.geom.same ⟨rfl, rfl, rfl, rfl⟩, ?tiling, ?disj, ?min, ?bits, ?orders, ?lists, ?lone⟩
  case tiling =>
    refine h.tiling.split (b := b) (Or.inl hw) (fun d => ?_)
    have h1 : d ∈ L ∨ d ∈ F → d ≠ ⟨b.off, b.ord + 1⟩ := by
      rintro hd rfl
      exact (h.upper_apart hbL hd).1 rfl
    simp only [Set.mem_ofPred_eq, Finset.mem_insert]
    tauto
  case disj =>
    intro d hd hd'
    have hub : b ≠ b.upper := by
      intro e
      have := congrArg Blk.off e
      have := b.size_pos
      simp only [Blk.upper] at *
      omega
    rcases Finset.mem_insert.mp hd with rfl | hdL
    · exact (Finset.mem_insert.mp hd').elim hub hbF
    · rcases Finset.mem_insert.mp hd' with rfl | hdF
      · exact (h.upper_apart hbL (Or.inl hdL)).2 rfl
      · exact h.disj d (Finset.mem_insert_of_mem hdL) hdF
  case min =>
    rintro d (hd | hd)
    · rcases Finset.mem_insert.mp hd with rfl | hdL
      · exact hmin
      · exact h.minOrder_le d (Or.inl (Finset.mem_insert_of_mem hdL))
    · rcases Finset.mem_insert.mp hd with rfl | hdF
      · exact hmin
      · exact h.minOrder_le d (Or.inr hdF)
  case bits => exact h.bits.insert hud
  case orders =>
    refine OrdersOk.insert ?_ (Function.update_self _ _ _)
    exact h.orders.update hud (fun d hd => ⟨h.off_dvd (Or.inr hd), hF d hd⟩)
  case lists =>
    exact h.lists.add (c := b.upper) h.uniqF hu0 (by simp only [Blk.upper_ord]; omega) hF
  case lone =>
    intro d hd hlt
    rcases Finset.mem_insert.mp hd with rfl | hdF
    · rw [hbu, Finset.mem_insert, not_or]
      exact ⟨fun e => Blk.buddy_ne (Blk.upper_aligned hal) (hbu.trans e), hbF⟩
    · rw [Finset.mem_insert, not_or]
      refine ⟨fun e => hbF ?_, h.lone d hdF hlt⟩
      rw [← hbu, ← e, Blk.buddy_buddy]
      exact hdF

/-- A split writes at the upper half only, and a block starts there afterwards. -/
theorem Core.split_orders (h : Core mp (insert ⟨b.off, b.ord + 1⟩ L) F)
    (hbL : ⟨b.off, b.ord + 1⟩ ∉ L) (hmin : mp.minOrder ≤ b.ord) {c : Blk} (hc : c.off = b.off)
    (ho : OrdersOk mp.allocOrder mp.minOrder (insert c L)) :
    OrdersOk (mmSplitBlk mp (mp.base + b.off) b.ord).allocOrder mp.minOrder (insert c L) := by
  have hw : (⟨b.off, b.ord + 1⟩ : Blk) ∈ insert ⟨b.off, b.ord + 1⟩ L := Finset.mem_insert_self _ _
  have hal : 2 ^ (b.ord + 1) ∣ b.off := h.tiling.aligned _ (Or.inl hw)
  rw [mmSplitBlk_eq h.geom (h.stop_le (Or.inl hw))]
  refine ho.update ((Nat.pow_dvd_pow 2 hmin).trans (Blk.upper_aligned hal)) (fun d hd => ?_)
  rcases Finset.mem_insert.mp hd with rfl | hdL
  · have hpos := b.size_pos
    refine ⟨?_, ?_⟩
    · rw [hc]
      exact h.off_dvd (b := ⟨b.off, b.ord + 1⟩) (Or.inl hw)
    · rw [hc]
      simp only [Blk.upper]
      omega
  · exact ⟨h.off_dvd (Or.inl (Finset.mem_insert_of_mem hdL)),
      (h.upper_apart hbL (Or.inl hdL)).2⟩

theorem Core.split_clean (h : Core mp (insert ⟨b.off, b.ord + 1⟩ L) F)
    (hmin : mp.minOrder ≤ b.ord) (hclean : MmClean mp (insert ⟨b.off, b.ord + 1⟩ L) F) :
    MmClean (mmSplitBlk mp (mp.base + b.off) b.ord) (insert b L) (insert b.upper F) := by
  have hw : (⟨b.off, b.ord + 1⟩ : Blk) ∈ insert ⟨b.off, b.ord + 1⟩ L := Finset.mem_insert_self _ _
  have hal : 2 ^ (b.ord + 1) ∣ b.off := h.tiling.aligned _ (Or.inl hw)
  have hud : 2 ^ mp.minOrder ∣ b.upper.off :=
    (Nat.pow_dvd_pow 2 hmin).trans (Blk.upper_aligned hal)
  rw [mmSplitBlk_eq h.geom (h.stop_le (Or.inl hw))]
  show OrdersClean (Function.update _ _ _) mp.nBlks mp.minOrder _ _
  intro i hi hi0
  by_cases hiu : i = b.upper.off / 2 ^ mp.minOrder
  · exact ⟨b.upper, Or.inr (Finset.mem_insert_self _ _), (off_eq_mul_iff hud).mpr hiu.symm⟩
  · rw [Function.update_of_ne hiu] at hi0
    obtain ⟨d, hd, hdo⟩ := hclean i hi hi0
    rcases hd with hd | hd
    · rcases Finset.mem_insert.mp hd with rfl | hdL
      · exact ⟨b, Or.inl (Finset.mem_insert_self _ _), hdo⟩
      · exact ⟨d, Or.inl (Finset.mem_insert_of_mem hdL), hdo⟩
    · exact ⟨d, Or.inr (Finset.mem_insert_of_mem hd), hdo⟩

end Split

/-- **The split loop**, by induction on the number of orders to go down. -/
theorem mmSplitLoop_spec {L : Finset Blk} {o order : Nat} : ∀ {n : Nat} {mp : MmPool}
    {F : Finset Blk}, Core mp (insert ⟨o, order + n⟩ L) F → ⟨o, order + n⟩ ∉ L →
    mp.minOrder ≤ order → OrdersOk mp.allocOrder mp.minOrder (insert ⟨o, order⟩ L) →
    ∃ F', Core (mmSplitLoop (mp.base + o) order n mp) (insert ⟨o, order⟩ L) F' ∧
      ⟨o, order⟩ ∉ L ∧ MmSame mp (mmSplitLoop (mp.base + o) order n mp) ∧
      (mmSplitLoop (mp.base + o) order n mp).allocBlks = mp.allocBlks ∧
      OrdersOk (mmSplitLoop (mp.base + o) order n mp).allocOrder mp.minOrder
        (insert ⟨o, order⟩ L) ∧
      (MmClean mp (insert ⟨o, order + n⟩ L) F →
        MmClean (mmSplitLoop (mp.base + o) order n mp) (insert ⟨o, order⟩ L) F')
  | 0, mp, F, h, hbL, _, ho => ⟨F, h, hbL, MmSame.refl mp, rfl, ho, id⟩
  | n + 1, mp, F, h, hbL, hmin, ho => by
    let b : Blk := ⟨o, order + n⟩
    have hmin' : mp.minOrder ≤ b.ord := hmin.trans (Nat.le_add_right order n)
    have hsplit := mmSplitBlk_eq (b := b) h.geom (h.stop_le (Or.inl (Finset.mem_insert_self _ _)))
    have hsame : MmSame mp (mmSplitBlk mp (mp.base + b.off) b.ord) := by
      rw [hsplit]
      exact ⟨rfl, rfl, rfl, rfl⟩
    have halloc : (mmSplitBlk mp (mp.base + b.off) b.ord).allocBlks = mp.allocBlks := by
      rw [hsplit]
    have hbL' : b ∉ L := fun e => (h.upper_apart (b := b) hbL (Or.inl e)).1 rfl
    obtain ⟨F', hcore, hnot, hs, ha, hord, hcl⟩ := mmSplitLoop_spec (n := n)
      (h.split (b := b) hbL hmin') hbL' (by rw [hsame.minOrder]; exact hmin)
      (by rw [hsame.minOrder]; exact h.split_orders (b := b) hbL hmin' rfl ho)
    rw [hsame.base] at hcore hs ha hord hcl
    rw [hsame.minOrder] at hord
    exact ⟨F', hcore, hnot, hsame.trans hs, ha.trans halloc, hord,
      fun hclean => hcl (h.split_clean (b := b) hmin' hclean)⟩

/-! ## 2. Taking a free block -/

section Take

variable {mm : Mm} {L F : Finset Blk} {b : Blk}

/-- The stores once a block is off its list and marked as allocated at an order. -/
def takenPool (mp : MmPool) (l : Links MmNode) (b : Blk) (order : Nat) : MmPool :=
  { mp with
    links := l
    blkFree := Function.update mp.blkFree (b.off / 2 ^ mp.minOrder) false
    allocOrder := Function.update mp.allocOrder (b.off / 2 ^ mp.minOrder) order }

/-- A free block that is taken off its list and marked as allocated is a busy block. -/
theorem Core.taken {mp : MmPool} {l : Links MmNode} (h : Core mp L F) (hb : b ∈ F)
    (hl : ListsOk l mp.base mp.maxOrder (F.erase b)) (order : Nat) :
    Core (takenPool mp l b order) (insert b L) (F.erase b) where
  geom := h.geom.same ⟨rfl, rfl, rfl, rfl⟩
  tiling := by
    have hset : {d | d ∈ insert b L ∨ d ∈ F.erase b} = {d | d ∈ L ∨ d ∈ F} := by
      ext d
      by_cases hdb : d = b
      · simp [hdb, hb]
      · simp [hdb]
    exact hset ▸ h.tiling
  disj := by
    intro d hd hdF
    obtain ⟨hne, hdF⟩ := Finset.mem_erase.mp hdF
    exact h.disj d (Finset.mem_of_mem_insert_of_ne hd hne) hdF
  minOrder_le := by
    rintro d (hd | hd)
    · rcases Finset.mem_insert.mp hd with rfl | hdL
      · exact h.minOrder_le d (Or.inr hb)
      · exact h.minOrder_le d (Or.inl hdL)
    · exact h.minOrder_le d (Or.inr (Finset.mem_of_mem_erase hd))
  bits := h.bits.erase (h.off_dvd (Or.inr hb)) (fun d hd e => h.uniqF d hd b hb e)
  orders := by
    refine (h.orders.mono (Finset.erase_subset _ _)).update (h.off_dvd (Or.inr hb)) ?_
    intro d hd
    obtain ⟨hne, hdF⟩ := Finset.mem_erase.mp hd
    exact ⟨h.off_dvd (Or.inr hdF), fun e => hne (h.uniqF d hdF b hb e)⟩
  lists := hl
  lone := fun d hd hlt hbud =>
    h.lone d (Finset.mem_of_mem_erase hd) hlt (Finset.mem_of_mem_erase hbud)

/-- **The end of `mm_alloc`**: the block `b`, off its list, is cut down to `order` and becomes
live. -/
theorem mmTake_spec (h : MmInv mm.pool L F) (hb : b ∈ F) {l : Links MmNode}
    (hl : ListsOk l mm.pool.base mm.pool.maxOrder (F.erase b)) {order : Nat}
    (hmin : mm.pool.minOrder ≤ order) (hle : order ≤ b.ord) :
    let mm' := mmTake { mm with pool := { mm.pool with links := l } } (mm.pool.base + b.off) b.ord
      order
    ∃ F', MmInv mm'.pool (insert ⟨b.off, order⟩ L) F' ∧ ⟨b.off, order⟩ ∉ L ∧
      MmSame mm.pool mm'.pool ∧
      (MmClean mm.pool L F → MmClean mm'.pool (insert ⟨b.off, order⟩ L) F') := by
  intro mm'
  have hmax := h.geom.maxOrder_lt
  have hble := h.ord_le (Or.inr hb)
  have hidx := h.idx_eq (Or.inr hb)
  have hdvd := h.off_dvd (Or.inr hb)
  have hmod : order % 256 = order := Nat.mod_eq_of_lt (by omega)
  have hbL : b ∉ L := fun e => h.disj b e hb
  simp only [mmBlkIdx] at hidx
  let mp₁ := takenPool mm.pool l b order
  have hord : order + (b.ord - order) = b.ord := Nat.add_sub_of_le hle
  have hcore : Core mp₁ (insert ⟨b.off, order + (b.ord - order)⟩ L) (F.erase b) := by
    rw [hord]
    exact h.taken hb hl order
  have hlive : OrdersOk mp₁.allocOrder mp₁.minOrder (insert ⟨b.off, order⟩ L) := by
    refine OrdersOk.insert (h.live.update hdvd (fun d hd => ?_)) (Function.update_self _ _ _)
    exact ⟨h.off_dvd (Or.inl hd), fun e => hbL (h.uniq (Or.inl hd) (Or.inr hb) e ▸ hd)⟩
  obtain ⟨F', hc, hnot, hsame, halloc, ho, hclean⟩ := mmSplitLoop_spec hcore
    (by rw [hord]; exact hbL) hmin hlive
  have hsame' : MmSame mm.pool (mmSplitLoop (mm.pool.base + b.off) order (b.ord - order) mp₁) :=
    (⟨rfl, rfl, rfl, rfl⟩ : MmSame mm.pool mp₁).trans hsame
  have hshl : wshl 1 (order - (mmSplitLoop (mm.pool.base + b.off) order (b.ord - order)
      mp₁).minOrder) = 2 ^ (order - mm.pool.minOrder) := by
    rw [hsame'.minOrder]
    exact wshl_one (by omega)
  have hres : mm'.pool = { mmSplitLoop (mm.pool.base + b.off) order (b.ord - order) mp₁ with
      allocBlks := wadd mm.pool.allocBlks (2 ^ (order - mm.pool.minOrder)) } := by
    have hmark : mmBlkSetAllocOrder (mmMarkAlloc { mm.pool with links := l }
        (mm.pool.base + b.off)) (mm.pool.base + b.off) order = mp₁ := by
      simp only [mp₁, takenPool, mmMarkAlloc, mmBlkSetAllocOrder, mmBlkIdx, hidx, hmod]
    simp only [mm', mmTake, hmark, hshl]
    rw [show (mmSplitLoop (mm.pool.base + b.off) order (b.ord - order) mp₁).allocBlks =
      mm.pool.allocBlks from halloc]
  -- the count of the new block fits
  have hsum : 2 ^ (order - mm.pool.minOrder) + ∑ d ∈ L, 2 ^ (d.ord - mm.pool.minOrder) +
      ∑ d ∈ F', 2 ^ (d.ord - mm.pool.minOrder) = mm.pool.nBlks := by
    have := hc.sum_blks
    rwa [Finset.sum_insert hnot, hsame.minOrder, hsame.nBlks] at this
  have hn : mm.pool.nBlks < 2 ^ 32 := by
    rw [h.geom.nBlks]
    exact Nat.pow_lt_pow_right (by norm_num) (by omega)
  have hadd : wadd mm.pool.allocBlks (2 ^ (order - mm.pool.minOrder)) =
      ∑ d ∈ insert ⟨b.off, order⟩ L, 2 ^ (d.ord - mm.pool.minOrder) := by
    rw [Finset.sum_insert hnot, ← h.alloc, wadd_of_lt (by rw [h.alloc]; omega), Nat.add_comm]
  rw [hres, hadd]
  refine ⟨F', ⟨⟨hc.geom.same ⟨rfl, rfl, rfl, rfl⟩, hc.tiling, hc.disj, hc.minOrder_le, hc.bits,
    hc.orders, hc.lists, hc.lone⟩, ?_, ?_⟩, hnot, ?_, fun hcl => hclean ?_⟩
  · rw [← hsame.minOrder] at ho
    exact ho
  · exact Finset.sum_congr rfl (fun d _ => by rw [← hsame'.minOrder])
  · exact hsame'.trans ⟨rfl, rfl, rfl, rfl⟩
  · -- marking writes at the start of a block
    rw [hord]
    intro i hi hi0
    by_cases hib : i = b.off / 2 ^ mm.pool.minOrder
    · exact ⟨b, Or.inl (Finset.mem_insert_self _ _), (off_eq_mul_iff hdvd).mpr hib.symm⟩
    · have hkept : mp₁.allocOrder i = mm.pool.allocOrder i := Function.update_of_ne hib _ _
      obtain ⟨d, hd, hdo⟩ := hcl i hi (hkept ▸ hi0)
      refine ⟨d, ?_, hdo⟩
      by_cases hdb : d = b
      · exact Or.inl (Finset.mem_insert.mpr (Or.inl hdb))
      · exact hd.imp Finset.mem_insert_of_mem (fun hdF => Finset.mem_erase.mpr ⟨hdb, hdF⟩)

end Take

/-! ## 3. The search -/

section Search

variable {mp : MmPool} {B F : Finset Blk}

/-- A list has an entry exactly if there is a free block of its order away from the base. -/
theorem Core.listEmpty_iff (h : Core mp B F) {k : Nat} (hk : k ≤ mp.maxOrder) :
    listEmpty mp.links (.blockOrder k) = true ↔ ∀ b ∈ F, b.ord = k → b.off = 0 := by
  obtain ⟨xs, hxs, hmem⟩ := h.lists.lists k hk
  rw [FlightOs.listEmpty_iff hxs, List.map_eq_nil_iff, List.eq_nil_iff_forall_not_mem]
  constructor
  · intro hnil b hb hbk
    by_contra h0
    exact hnil _ ((hmem _).mpr ⟨b, hb, hbk, h0, rfl⟩)
  · intro hz a ha
    obtain ⟨b, hb, hbk, h0, -⟩ := (hmem a).mp ha
    exact h0 (hz b hb hbk)

/-- **The search**, by induction on the number of lists left to look at. -/
theorem Core.findOrder (h : Core mp B F) : ∀ {n i : Nat}, i + n ≤ mp.maxOrder + 1 →
    match mmFindOrder mp n i with
    | some k => i ≤ k ∧ k ≤ mp.maxOrder ∧ listEmpty mp.links (.blockOrder k) = false
    | none => ∀ b ∈ F, i ≤ b.ord → b.ord < i + n → b.off = 0
  | 0, i, _ => fun b _ h1 h2 => by omega
  | n + 1, i, hn => by
    rw [mmFindOrder]
    by_cases he : listEmpty mp.links (.blockOrder i) = true
    · rw [if_pos he]
      have ih := h.findOrder (n := n) (i := i + 1) (by omega)
      have hz := (h.listEmpty_iff (by omega)).mp he
      cases hf : mmFindOrder mp n (i + 1) with
      | some k =>
        rw [hf] at ih
        exact ⟨by omega, ih.2⟩
      | none =>
        rw [hf] at ih
        intro b hb h1 h2
        rcases Nat.eq_or_lt_of_le h1 with e | hlt
        · exact hz b hb e.symm
        · exact ih b hb hlt (by omega)
    · rw [if_neg he]
      exact ⟨Nat.le_refl _, by omega, Bool.eq_false_iff.mpr he⟩

/-- The first entry of a list that has one is a free block of its order, away from the base. -/
theorem Core.listEntry (h : Core mp B F) {k : Nat} (hk : k ≤ mp.maxOrder)
    (he : listEmpty mp.links (.blockOrder k) = false) :
    ∃ b ∈ F, b.ord = k ∧ b.off ≠ 0 ∧
      mmListEntry (mp.links (.blockOrder k)).next = mp.base + b.off := by
  obtain ⟨xs, hxs, hmem⟩ := h.lists.lists k hk
  have hne := (FlightOs.listEmpty_iff hxs).not.mp (Bool.eq_false_iff.mp he)
  cases xs with
  | nil => exact absurd rfl hne
  | cons a rest =>
    obtain ⟨b, hb, hbk, h0, rfl⟩ := (hmem a).mp List.mem_cons_self
    refine ⟨b, hb, hbk, h0, ?_⟩
    rw [List.map_cons] at hxs
    rw [hxs.next_cons]
    rfl

/-- With no busy block the pool is one free block. -/
theorem Core.eq_single (h : Core mp ∅ F) : F = {⟨0, mp.maxOrder⟩} := by
  have hset : {b | b ∈ (∅ : Finset Blk) ∨ b ∈ F} = (F : Set Blk) := by
    ext b
    simp
  have := (hset ▸ h.tiling).eq_single_of_lone h.lone
  exact_mod_cast this

end Search

/-! ## 4. `mm_alloc` -/

section Alloc

variable {mm : Mm} {L F : Finset Blk}

/-- The order of the block that a request of `size` bytes takes. -/
def mmReqOrder (mp : MmPool) (size : Nat) : Nat :=
  max mp.minOrder (ilog2 (roundupPowOfTwo size))

theorem mmFixupValidate_null {mp : MmPool} {k : Nat} (hk : k ≤ mp.maxOrder) :
    mmFixupValidate mp 0 k = max mp.minOrder k := by
  rw [mmFixupValidate, if_neg (by omega), if_neg (by simp), if_neg (by simp)]
  split
  · next hlt => exact (max_eq_left hlt.le).symm
  · next hlt => exact (max_eq_right (not_lt.mp hlt)).symm

theorem MmInv.allocBlks_eq_zero_iff (h : MmInv mm.pool L F) : mm.pool.allocBlks = 0 ↔ L = ∅ := by
  rw [h.alloc, Finset.sum_eq_zero_iff, Finset.eq_empty_iff_forall_notMem]
  exact forall_congr' (fun b => imp_congr_right (fun _ => by simp))

/-- What a successful request leaves behind. -/
structure Allocated (mp : MmPool) (L F : Finset Blk) (size : Nat) (mp' : MmPool) (c : Blk)
    (F' : Finset Blk) : Prop where
  inv : MmInv mp' (insert c L) F'
  notMem : c ∉ L
  ord : c.ord = mmReqOrder mp size
  same : MmSame mp mp'
  clean : MmClean mp L F → MmClean mp' (insert c L) F'

/-- What is known when a request is refused. -/
structure Refused (mp : MmPool) (L F : Finset Blk) (size : Nat) : Prop where
  full : size = 0 ∨ mp.maxOrder < ilog2 (roundupPowOfTwo size) ∨
    (L ≠ ∅ ∧ ∀ b ∈ F, mmReqOrder mp size ≤ b.ord → b.off = 0)

/-- **`mm_alloc`**: a new live block of the order of the request, or nothing at all. -/
theorem mmAlloc_spec (h : MmInv mm.pool L F) (size : Nat) :
    match mmAlloc mm size with
    | (mm', some a) => ∃ c F', a = mm.pool.base + c.off ∧ Allocated mm.pool L F size mm'.pool c F'
    | (mm', none) => mm'.pool = mm.pool ∧ Refused mm.pool L F size := by
  have hmax := h.geom.maxOrder_lt
  by_cases h0 : size = 0
  · rw [mmAlloc, if_pos h0]
    exact ⟨rfl, ⟨Or.inl h0⟩⟩
  by_cases hord : mm.pool.maxOrder < ilog2 (roundupPowOfTwo size)
  · have hfix : mmFixupValidate mm.pool 0 (ilog2 (roundupPowOfTwo size)) = wsub 0 EINVAL := by
      rw [mmFixupValidate, if_pos hord]
    rw [mmAlloc, if_neg h0, hfix, mmAllocOrder, if_pos isErrValue_neg_EINVAL]
    exact ⟨rfl, ⟨Or.inr (Or.inl hord)⟩⟩
  have hfix : mmFixupValidate mm.pool 0 (ilog2 (roundupPowOfTwo size)) =
      mmReqOrder mm.pool size := mmFixupValidate_null (not_lt.mp hord)
  have hreq : mmReqOrder mm.pool size ≤ mm.pool.maxOrder :=
    max_le h.geom.minOrder_le (not_lt.mp hord)
  have herr : isErrValue (mmReqOrder mm.pool size) = false := isErrValue_of_lt (by omega)
  rw [mmAlloc, if_neg h0, hfix, mmAllocOrder, if_neg (Bool.eq_false_iff.mp herr)]
  by_cases hL : mm.pool.allocBlks = 0
  · -- nothing allocated: the whole pool is taken from the base
    rw [if_neg (not_not.mpr hL)]
    have hL0 : L = ∅ := h.allocBlks_eq_zero_iff.mp hL
    subst hL0
    have hF := h.eq_single
    have hb : (⟨0, mm.pool.maxOrder⟩ : Blk) ∈ F := hF ▸ Finset.mem_singleton_self _
    have hl : ListsOk mm.pool.links mm.pool.base mm.pool.maxOrder
        (F.erase ⟨0, mm.pool.maxOrder⟩) := by
      refine h.lists.frame (o := 0) (fun _ _ h0 => h0) (fun _ _ => rfl) (fun b hb0 => ?_) ?_
      · rw [hF, Finset.mem_erase, Finset.mem_singleton]
        exact ⟨fun e => e.2, fun e => absurd (e ▸ rfl : b.off = 0) hb0⟩
      · rw [hF, Finset.erase_singleton]
        exact fun b hb => absurd hb (Finset.notMem_empty b)
    obtain ⟨F', hinv, hnot, hsame, hclean⟩ := mmTake_spec h hb hl (le_max_left _ _) hreq
    exact ⟨⟨0, mmReqOrder mm.pool size⟩, F', rfl, hinv, hnot, rfl, hsame, hclean⟩
  · rw [if_pos hL]
    have hfind := h.findOrder (n := mm.pool.maxOrder + 1 - mmReqOrder mm.pool size)
      (i := mmReqOrder mm.pool size) (by omega)
    cases hf : mmFindOrder mm.pool (mm.pool.maxOrder + 1 - mmReqOrder mm.pool size)
      (mmReqOrder mm.pool size) with
    | none =>
      rw [hf] at hfind
      refine ⟨rfl, ⟨Or.inr (Or.inr ⟨h.allocBlks_eq_zero_iff.not.mp hL, fun b hb hle => ?_⟩)⟩⟩
      have := h.ord_le (Or.inr hb)
      exact hfind b hb hle (by omega)
    | some i =>
      rw [hf] at hfind
      obtain ⟨hi, himax, hne⟩ := hfind
      obtain ⟨b, hb, rfl, hb0, hentry⟩ := h.listEntry himax hne
      have hl := h.lists.del h.uniqF hb hb0 himax
      obtain ⟨F', hinv, hnot, hsame, hclean⟩ := mmTake_spec h hb hl (le_max_left _ _) hi
      simp only [hentry]
      exact ⟨⟨b.off, mmReqOrder mm.pool size⟩, F', rfl, hinv, hnot, rfl, hsame, hclean⟩

end Alloc

end FlightOs
