/-
# Boot memory over the page map

An allocation of boot memory is served by a chunk of the pool, or the page map is asked for a new one,
which is held from then on.  `BootInv` says that the regions of the pool are blocks that are held, and
`bootAlloc_spec` that an allocation keeps that, as long as memory does not run out: it is never the
pool or the page map that stops it.

The sizes are those of the stores of a node.  A region is a power of two, and for these sizes it is
either too small for a chunk or has room for the header of the region as well (`FitsBlocks`).
-/
import FlightOs.Boot.Pages

namespace FlightOs

/-! ## 1. What an allocation does with the pool -/

section Chunk

variable {s s' : ChunkPool} {c n size region real p : Nat}

theorem chunkSplit_frame (s : ChunkPool) (c n : Nat) :
    (chunkSplit s c n).1.tier = s.tier ∧ (chunkSplit s c n).1.hasRealSize = s.hasRealSize := by
  rw [chunkSplit]
  split
  · exact ⟨rfl, rfl⟩
  · simp only [chunkClassify]
    split
    · exact ⟨rfl, rfl⟩
    · exact ⟨rfl, rfl⟩

theorem chunkGrabNew_frame (s : ChunkPool) (n region real : Nat) :
    (chunkGrabNew s n region real).1.hasRealSize = s.hasRealSize ∧
      ((chunkGrabNew s n region real).2 ≠ 0 → region ≠ 0 ∧
        (chunkGrabNew s n region real).1.tier =
          .alloc n region (s.regionSize n real) :: s.tier) := by
  rw [chunkGrabNew_eq]
  split
  · exact ⟨rfl, fun h => absurd rfl h⟩
  · next hr =>
    split
    · exact ⟨rfl, fun h => absurd rfl h⟩
    · exact ⟨rfl, fun _ => ⟨hr, rfl⟩⟩

theorem chunkAllocFrom_frame (h : chunkAllocFrom s c n = some (s', p)) :
    s'.tier = s.tier ∧ s'.hasRealSize = s.hasRealSize := by
  have hf := chunkSplit_frame s c n
  simp only [chunkAllocFrom] at h
  split at h
  · cases h
  · obtain ⟨rfl, -⟩ := Prod.mk.inj (Option.some.inj h)
    exact hf

/-- A buffer comes from the pool as it is, or the higher tier has been asked for a region. -/
theorem chunkAlloc_frame (h : chunkAlloc s size region real = some (s', p)) :
    s'.hasRealSize = s.hasRealSize ∧ (p ≠ 0 → s'.tier = s.tier ∨ region ≠ 0 ∧
      s'.tier = .alloc (chunkAllocSz s size) region (s.regionSize (chunkAllocSz s size) real) ::
        s.tier) := by
  rw [chunkAlloc] at h
  split at h
  · obtain ⟨rfl, rfl⟩ := Prod.mk.inj (Option.some.inj h)
    exact ⟨rfl, fun _ => Or.inl rfl⟩
  split at h
  · obtain ⟨rfl, rfl⟩ := Prod.mk.inj (Option.some.inj h)
    exact ⟨rfl, fun _ => Or.inl rfl⟩
  dsimp only at h
  split at h
  · cases h
  · obtain ⟨hreal, htier⟩ := chunkGrabNew_frame s (chunkAllocSz s size) region real
    split at h
    · obtain ⟨rfl, rfl⟩ := Prod.mk.inj (Option.some.inj h)
      exact ⟨hreal, fun hp => absurd rfl hp⟩
    · next hne =>
      obtain ⟨ht, hr⟩ := chunkAllocFrom_frame h
      obtain ⟨hr0, ht0⟩ := htier hne
      exact ⟨hr.trans hreal, fun _ => Or.inr ⟨hr0, ht.trans ht0⟩⟩
  · obtain ⟨ht, hr⟩ := chunkAllocFrom_frame h
    exact ⟨hr, fun _ => Or.inl ht⟩

end Chunk

/-! ## 2. A chunk of the page map -/

section Reserve

variable {cfg : List Nat} {s : PgHeld} {st : PageScan} {n a : Nat}

theorem readyFor_of_all {s : PgState} {size : Nat} {pg : List Nat} (h : ∀ i ∈ pg, i ∈ s.ready) :
    s.ReadyFor size pg := by
  induction pg with
  | nil => exact trivial
  | cons i pg ih =>
    exact ⟨h i List.mem_cons_self, fun _ => ih fun j hj => h j (List.mem_cons_of_mem i hj)⟩

/-- The chunk is held of the node that it comes from, and has no byte in common with what is held. -/
theorem PgKept.reserved (K : PgKept cfg s) (hpages : ∀ i ∈ cfg, 0 < pgSize (s.map.node i).pool)
    (hok : PgUseOk cfg s (.reserve n)) (h : pageMapReserveChunk s.map n = some st)
    (ha : st.page = some a) :
    ∃ i ∈ cfg, (a, n) ∈ (s.take st fun _ => n).live i ∧ ∀ j ∈ cfg, ∀ e ∈ s.live j, a ≠ e.1 ∧
      (a + mmBlockSize (st.map.node i).pool a ≤ e.1 ∨
        e.1 + mmBlockSize (s.map.node j).pool e.1 ≤ a) := by
  obtain ⟨K', hfresh⟩ := K.reserve hok h
  obtain ⟨pg, -, -, hmem, -, -, -⟩ := K.lists
  obtain ⟨hne, hready⟩ := hok pg hmem
  simp only [pageMapReserveChunk, hmem, if_neg hne] at h
  obtain ⟨dry, rest, heq, hdry, -, -, hfound⟩ :=
    @pageMapReserveFrom_spec s.map ⟨s.map, none, []⟩ pg n rfl rfl
  rw [Option.some.inj h] at hfound
  have hrest := (hready.asked heq hdry).2
  obtain ⟨i, hi, hlive⟩ : ∃ i ∈ cfg, (a, n) ∈ (s.take st fun _ => n).live i := by
    cases hfound with
    | none hpage =>
      rw [hpage] at ha
      cases ha
    | @some st i a' rest hpage hserves hnode hasked =>
      obtain rfl : a' = a := Option.some.inj (hpage.symm.trans ha)
      refine ⟨i, hrest i List.mem_cons_self, ?_⟩
      rw [PgHeld.take_some hpage hasked]
      show (a', n) ∈ Function.update s.live i ((a', n) :: s.live i) i
      rw [Function.update_self]
      exact List.mem_cons_self
  -- the node with the section is the one that the chunk is held of
  obtain ⟨i', hi', size, hsize, hpage, -, -, hapart⟩ := hfresh a ha
  have hi'_eq : i' = i := by
    refine K'.owner hi hi' (List.mem_map.mpr ⟨_, hlive, rfl⟩) ?_
    rw [PgHeld.take_map]
    by_contra hnot
    rw [mmBlockSize, if_neg hnot] at hsize
    have hpos := hpages i' hi'
    omega
  subst hi'_eq
  exact ⟨i', hi, hlive, fun j hj e he => hsize ▸ hapart j hj e he⟩

end Reserve

/-! ## 3. Sizes -/

/-- A chunk for so many bytes fits into a power of two of a page or more with the header of a region,
if it fits into it at all. -/
structure FitsBlocks (size : Nat) : Prop where
  pos : 0 < size
  fits : size + 52 ≤ 2 ^ 32
  room : ∀ k, 12 ≤ k → size + 44 ≤ 2 ^ k → size + 100 ≤ 2 ^ k

theorem fitsBlocks_small {size : Nat} (hpos : 0 < size) (h : size ≤ 3996) : FitsBlocks size where
  pos := hpos
  fits := by omega
  room k hk _ := by
    have hpow : 2 ^ 12 ≤ 2 ^ k := Nat.pow_le_pow_right (by decide) hk
    omega

/-- A little more than a power of two does not fit into it, and there is room in the next one. -/
theorem fitsBlocks_pow {j d : Nat} (hj : j < 32) (hd : d ≤ 1000) : FitsBlocks (2 ^ j + d) := by
  have hlt : 2 ^ j ≤ 2 ^ 31 := Nat.pow_le_pow_right (by decide) (by omega)
  have hpos := Nat.two_pow_pos j
  rcases Nat.lt_or_ge j 12 with hlow | hhigh
  · have hle : 2 ^ j ≤ 2 ^ 11 := Nat.pow_le_pow_right (by decide) (by omega)
    exact fitsBlocks_small (by omega) (by omega)
  · refine ⟨by omega, by omega, fun k _ hle => ?_⟩
    have hjk : j < k := (Nat.pow_lt_pow_iff_right (a := 2) (by decide)).mp (by omega)
    have hnext : 2 ^ (j + 1) ≤ 2 ^ k := Nat.pow_le_pow_right (by decide) hjk
    have h12 : 2 ^ 12 ≤ 2 ^ j := Nat.pow_le_pow_right (by decide) hhigh
    rw [Nat.pow_succ] at hnext
    omega

/-- The sizes of a node's stores. -/
theorem bootNodeSizes_fit {c : BootConfig} (hlt : c.mmBlockOrderMin < c.mmBlockOrderMax)
    (hmax : c.mmBlockOrderMax < 32) {size : Nat} (h : size ∈ bootNodeSizes c) : FitsBlocks size := by
  have hn := mmNumBlocksTrackable_eq hmax (Nat.le_of_lt hlt)
  obtain ⟨j, hj⟩ : ∃ j, j = c.mmBlockOrderMax - c.mmBlockOrderMin := ⟨_, rfl⟩
  rw [← hj] at hn
  simp only [bootNodeSizes, List.mem_cons, List.not_mem_nil, or_false] at h
  rcases h with rfl | rfl | rfl | rfl | rfl
  · exact fitsBlocks_small (by decide) (by decide)
  · exact fitsBlocks_small (by decide) (by decide)
  · refine fitsBlocks_small ?_ ?_ <;> simp only [sizeofListHead] <;> omega
  · rw [hn]
    exact fitsBlocks_pow (d := 0) (by omega) (by omega)
  · rw [mmBitmapLen, hn]
    rcases Nat.lt_or_ge j 5 with hlow | hhigh
    · have hle : 2 ^ j ≤ 2 ^ 4 := Nat.pow_le_pow_right (by decide) (by omega)
      exact fitsBlocks_small (by omega) (by omega)
    · have hsplit : 2 ^ j = 2 ^ (j - 5) * 32 := by
        rw [show (32 : Nat) = 2 ^ 5 from rfl, ← Nat.pow_add, Nat.sub_add_cancel hhigh]
      have hbytes : ((2 ^ j + 31) / 32 + 1) * 4 = 2 ^ (j - 5 + 2) + 4 := by
        rw [Nat.pow_add]
        omega
      rw [hbytes]
      exact fitsBlocks_pow (by omega) (by decide)

/-! ## 4. An allocation -/

/-- The page map is that of the banks, and the regions of the pool are held of it. -/
structure BootInv (banks : List PhysBank) (img : PhysBank) (reserved : Nat) (s : BootState) : Prop where
  pages : BootPages banks img reserved s.held
  ends : ∀ b ∈ banks, b.baseAddr + b.numBytes < 2 ^ 32
  pool : ChunkRun False False 8 s.phys
  real : s.phys.pool.hasRealSize = true
  regions : ∀ r ∈ tierHeld s.phys.pool.tier, ∃ i ∈ List.range banks.length, ∃ e ∈ s.held.live i,
    e.1 = r.1 ∧ r.2 = mmBlockSize (s.held.map.node i).pool e.1

section Alloc

variable {c : BootConfig} {banks : List PhysBank} {img : PhysBank} {reserved size : Nat} {s : BootState}

/-- What `page_map_reserve_chunk` and `page_map_get_chunk_size` come to in `chunk_alloc`: there is no
region, or a block that is held from now on. -/
theorem BootInv.reserve (h : BootInv banks img reserved s) (n : Nat) :
    ∃ st, pageMapReserveChunk s.held.map n = some st ∧
      BootPages banks img reserved (s.held.take st fun _ => n) ∧
      (∀ fuel, pageMapGetChunkSize fuel st.map 0 = some 0) ∧
      ∀ a, st.page = some a → ∃ i ∈ List.range banks.length,
        (a, n) ∈ (s.held.take st fun _ => n).live i ∧
        pageMapGetChunkSize (banks.length + 1) st.map a = some (mmBlockSize (st.map.node i).pool a) ∧
        ∀ j ∈ List.range banks.length, ∀ e ∈ s.held.live j, a ≠ e.1 ∧
          (a + mmBlockSize (st.map.node i).pool a ≤ e.1 ∨
            e.1 + mmBlockSize (s.held.map.node j).pool e.1 ≤ a) := by
  have P := h.pages
  have hne : List.range banks.length ≠ [] := List.ne_nil_of_mem P.zero_mem
  have hok : PgUseOk (List.range banks.length) s.held (.reserve n) := by
    intro pg hpg
    obtain rfl := Option.some.inj (P.pageMem.symm.trans hpg)
    exact ⟨hne, readyFor_of_all fun i hi => hi⟩
  obtain ⟨fuel, s', hcall⟩ := P.kept.returns hok
  obtain ⟨st, hst, rfl⟩ := Option.map_eq_some_iff.mp hcall
  have P' := P.use hok (by simp) hcall
  have hmem : st.map.pageMem = some (List.range banks.length) := by
    rw [← @PgHeld.take_map s.held st fun _ => n]
    exact P'.pageMem
  refine ⟨st, hst, P', fun fuel => ?_, fun a ha => ?_⟩
  · simp only [pageMapGetChunkSize, hmem, if_pos]
  · have hpages : ∀ i ∈ List.range banks.length, 0 < pgSize (s.held.map.node i).pool := by
      intro i hi
      obtain ⟨b, -, hb⟩ := P.node_of_mem hi
      rw [hb.pgSize_eq]
      decide
    obtain ⟨i, hi, hlive, hapart⟩ := P.kept.reserved hpages hok hst ha
    refine ⟨i, hi, hlive, ?_, hapart⟩
    obtain ⟨pg, full, empty, -, L, hperm, -⟩ := P'.kept.lists
    rw [PgHeld.take_map] at L
    have hlen : full.length + empty.length = banks.length := by
      rw [← List.length_append, hperm.length_eq, List.length_range]
    obtain ⟨-, -, h0, hin⟩ := (P'.kept.pool i hi).held hlive
    rw [PgHeld.take_map] at hin
    refine pageMapGetChunkSize_spec hmem h0 L (by omega) (hperm.mem_iff.mpr hi) hin (fun j hj hjin => ?_)
    refine P'.kept.owner hi (hperm.mem_iff.mp hj) (List.mem_map.mpr ⟨_, hlive, rfl⟩) ?_
    rw [PgHeld.take_map]
    exact hjin

/-- **An allocation** of boot memory, unless it runs out. -/
theorem bootAlloc_spec (h : BootInv banks img reserved s) (hsize : FitsBlocks size) :
    bootAlloc c s size = .outOfMemory ∨
      ∃ s', bootAlloc c s size = .done s' ∧ BootInv banks img reserved s' := by
  have P := h.pages
  have hh : chunkHeader = 36 := rfl
  have hpos := hsize.pos
  have hfits := hsize.fits
  have hal := h.pool.align
  obtain ⟨st, hst, P', hnull, hblock⟩ := h.reserve (chunkAllocSz s.phys.pool size)
  have hmem : st.map.pageMem = some (List.range banks.length) := by
    rw [← @PgHeld.take_map s.held st fun _ => chunkAllocSz s.phys.pool size]
    exact P'.pageMem
  obtain ⟨want, hwant⟩ : ∃ want, want = chunkAllocSz s.phys.pool size := ⟨_, rfl⟩
  have hwant_le : size + 44 ≤ want ∧ want < size + 52 := by
    have hw : wadd (wadd size 8) chunkHeader = size + 44 := by
      rw [wadd_of_lt (a := size) (by omega), wadd_of_lt (by omega), hh]
    obtain ⟨-, h1, h2⟩ := walign_spec (x := size + 44) (a := 8) (by decide) (by omega)
    rw [hwant, chunkAllocSz, chunkAlign, hal, hw]
    omega
  obtain ⟨region, hregion⟩ : ∃ region, region = if s.blocked then 0 else st.page.getD 0 := ⟨_, rfl⟩
  -- the region, and what it is in the page map
  obtain ⟨real, hreal, hheld⟩ : ∃ real,
      pageMapGetChunkSize (banks.length + 1) st.map region = some real ∧
      (region ≠ 0 → st.page = some region ∧ ∃ i ∈ List.range banks.length,
        (region, want) ∈ (s.held.take st fun _ => want).live i ∧
        real = mmBlockSize (st.map.node i).pool region ∧
        ∀ j ∈ List.range banks.length, ∀ e ∈ s.held.live j, region ≠ e.1 ∧
          (region + real ≤ e.1 ∨ e.1 + mmBlockSize (s.held.map.node j).pool e.1 ≤ region)) := by
    by_cases h0 : region = 0
    · rw [h0]
      exact ⟨0, hnull _, fun hne => absurd rfl hne⟩
    · have hpage : st.page = some region := by
        rw [hregion] at h0 ⊢
        split at h0
        · exact absurd rfl h0
        · next hb =>
          rw [if_neg hb]
          cases hp : st.page with
          | none =>
            rw [hp] at h0
            exact absurd rfl h0
          | some a => rfl
      obtain ⟨i, hi, hlive, hget, hapart⟩ := hblock region hpage
      exact ⟨_, hget, fun _ => ⟨hpage, i, hi, hwant ▸ hlive, rfl, hapart⟩⟩
  rw [← hwant] at hst P'
  have hrs : s.phys.pool.regionSize want real = real := by rw [ChunkPool.regionSize, if_pos h.real]
  -- how large it is, and where it ends
  have hregion_spec : region ≠ 0 → region + real < 2 ^ 32 ∧ ∃ k, 12 ≤ k ∧ real = 2 ^ k := by
    intro hr
    obtain ⟨-, i, hi, hlive, hreal_eq, -⟩ := hheld hr
    obtain ⟨b, hb, hnode⟩ := P'.node_of_mem hi
    have hends := h.ends b hb
    have hin := ((P'.kept.pool i hi).held hlive).1.2
    have hblk := (P'.kept.pool i hi).blockSize hlive
    rw [hnode.memEnd] at hin
    rw [PgHeld.take_map] at hin hblk hnode
    dsimp only at hin hblk
    rw [← hreal_eq] at hin hblk
    exact ⟨by omega, _, hnode.minOrder ▸ le_max_left _ _, hblk⟩
  have hok : ChunkOk s.phys (.alloc size region real) := by
    refine ⟨⟨by omega, ?_⟩, ?_⟩
    · rw [← hwant, hrs]
      intro hr
      obtain ⟨-, i, hi, -, -, hapart⟩ := hheld hr
      refine ⟨(hregion_spec hr).1, fun e he => ?_⟩
      obtain ⟨j, hj, d, hd, hde, hde'⟩ := h.regions e he
      obtain ⟨hne, hdis⟩ := hapart j hj d hd
      rw [← hde, hde']
      exact ⟨hne.symm, hdis.symm⟩
    · show AllocFits _ _ _ _
      rw [← hwant, hrs, AllocFits, ← hwant, hal]
      refine ⟨by omega, fun hr hle => ?_⟩
      obtain ⟨hend, k, hk, hpow⟩ := hregion_spec hr
      have hroom := hsize.room k hk (by omega)
      obtain ⟨-, -, hstart⟩ := chunkStart_spec (a := 8) (c := region) (by decide) (by omega)
      omega
  obtain ⟨t, hcall, hrun⟩ := h.pool.call poolAlign_eight hok False.elim False.elim
  obtain ⟨⟨pool, ptr⟩, halloc, rfl⟩ := Option.map_eq_some_iff.mp hcall
  obtain ⟨hreal', htier⟩ := chunkAlloc_frame halloc
  rw [← hwant, hrs] at htier
  have hresult : bootAlloc c s size = if ptr = 0 then .outOfMemory
      else if pool.tier = s.phys.pool.tier then
        .done { s with phys := ⟨pool, addBlock s.phys.live ptr size⟩ }
      else .done ⟨s.held.take st fun _ => want, ⟨pool, addBlock s.phys.live ptr size⟩,
        s.blocked || !c.requestNewOnDemand⟩ := by
    rw [bootAlloc, if_neg (by omega)]
    simp only [← hwant, hst, ← hregion, hmem, Option.getD_some, List.length_range, hreal, halloc]
  rw [hresult]
  by_cases hp : ptr = 0
  · exact Or.inl (if_pos hp)
  rw [if_neg hp]
  refine Or.inr ?_
  by_cases ht : pool.tier = s.phys.pool.tier
  · rw [if_pos ht]
    refine ⟨_, rfl, P, h.ends, hrun, hreal'.trans h.real, ?_⟩
    show ∀ r ∈ tierHeld pool.tier, _
    rw [ht]
    exact h.regions
  · rw [if_neg ht]
    obtain ⟨hr0, htier⟩ := (htier hp).resolve_left ht
    obtain ⟨-, i, hi, hlive, hreal_eq, -⟩ := hheld hr0
    refine ⟨_, rfl, P', h.ends, hrun, hreal'.trans h.real, ?_⟩
    show ∀ r ∈ tierHeld pool.tier, _
    rw [htier]
    intro r hr
    rw [tierHeld, addBlock, if_neg hr0] at hr
    rcases List.mem_cons.mp hr with rfl | hr
    · refine ⟨i, hi, _, hlive, rfl, ?_⟩
      rw [PgHeld.take_map]
      exact hreal_eq
    · obtain ⟨j, hj, d, hd, hdr, hsz⟩ := h.regions r hr
      have hd' : d ∈ (s.held.take st fun _ => want).live j := mem_take_live hd
      refine ⟨j, hj, d, hd', hdr, hsz.trans ?_⟩
      obtain ⟨b, -, hb⟩ := P.node_of_mem hj
      obtain ⟨b', -, hb'⟩ := P'.node_of_mem hj
      exact ((P.kept.pool j hj).blockSize_same (P'.kept.pool j hj)
        (hb'.minOrder.trans hb.minOrder.symm) hd hd').symm

theorem bootAllocAll_spec {sizes : List Nat} (hsizes : ∀ size ∈ sizes, FitsBlocks size)
    (h : BootInv banks img reserved s) :
    bootAllocAll c sizes s = .outOfMemory ∨
      ∃ s', bootAllocAll c sizes s = .done s' ∧ BootInv banks img reserved s' := by
  induction sizes generalizing s with
  | nil => exact Or.inr ⟨s, rfl, h⟩
  | cons size sizes ih =>
    rcases bootAlloc_spec (c := c) h (hsizes size List.mem_cons_self) with hout | ⟨s', hdone, h'⟩
    · exact Or.inl (by simp only [bootAllocAll, hout])
    · rcases ih (fun n hn => hsizes n (List.mem_cons_of_mem _ hn)) h' with hout | ⟨s'', hdone', h''⟩
      · exact Or.inl (by simp only [bootAllocAll, hdone, hout])
      · exact Or.inr ⟨s'', by simp only [bootAllocAll, hdone, hdone'], h''⟩

end Alloc

end FlightOs
