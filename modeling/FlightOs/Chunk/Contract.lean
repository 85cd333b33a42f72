/-
# The chunk allocator over whole runs

What the pool is to its callers and to the higher tier, in every state that a run can reach as long
as the sizes fit:

* `chunk_sound`: live buffers are aligned, large enough, apart from one another and from all
  headers, and lie in regions that have not been handed back;
* `chunk_returns`: once no buffer is live, every region has been handed back, if the buffers were
  freed youngest first;
* `chunk_sorted`: a chunk with room is on the list that is searched, if no exhausted chunk was
  given memory back.
-/
import FlightOs.Chunk.Run

namespace FlightOs

/-! ## 1. Buffers -/

/-- The bytes from an address on, up to the end of its chunk. -/
def chunkBufferSize (s : ChunkPool) (addr : Nat) : Nat :=
  chunkOfAddr s addr + (s.hdr (chunkOfAddr s addr)).size - addr

/-- The live buffers of a pool with the chunks `fl` and `em` on its lists. -/
structure ChunkSound (s : ChunkState) (fl em : List Nat) : Prop where
  lists : ListPair s.pool.links .chunk .full .empty fl em
  aligned : ∀ e ∈ s.live, s.pool.align ∣ e.1
  large : ∀ e ∈ s.live, e.2 ≤ chunkBufferSize s.pool e.1
  apart : s.live.Pairwise (fun e d => e.1 + chunkBufferSize s.pool e.1 ≤ d.1 ∨
    d.1 + chunkBufferSize s.pool d.1 ≤ e.1)
  inside : ∀ e ∈ s.live, ∃ r ∈ tierHeld s.pool.tier,
    r.1 ≤ e.1 ∧ e.1 + chunkBufferSize s.pool e.1 ≤ r.1 + r.2
  headers : ∀ e ∈ s.live, ∀ c ∈ fl ++ em,
    e.1 + chunkBufferSize s.pool e.1 ≤ c ∨ c + chunkHeader ≤ e.1

section Sound

variable {Y S : Prop} {a : Nat} {hasRealSize : Bool} {s : ChunkState} {fl em : List Nat}
  {p : ChunkPool} {live : List (Nat × Nat)} {r : Nat}

/-- The buffer of a live chunk, as its header has it. -/
theorem ChunkInv.buffer (I : ChunkInv Y S r p live fl em) (ha : PoolAlign p.align)
    {e : Nat × Nat} (he : e ∈ live) : ∃ c ∈ chunkSet fl em, e.1 = chunkStart p.align c ∧
      c + chunkHeader ≤ e.1 ∧ p.align ∣ e.1 ∧ e.1 + chunkBufferSize p e.1 = c + (p.hdr c).size ∧
      e.2 ≤ chunkBufferSize p e.1 ∧
      ∀ x, c ≤ x → x < c + (p.hdr c).size → ChunkOwn p.align p.hdr c x := by
  obtain ⟨c, hc, hl, hec, hdvd, -, hle⟩ := I.of_buffer ha.pos he
  obtain ⟨h1, h2, -⟩ := I.tree.start ha.pos hc
  have hof : chunkOfAddr p e.1 = c := by
    rw [hec]
    exact I.chunkOfAddr_start ha.pos ha.header hc hdvd
  have hsize : chunkBufferSize p e.1 = c + (p.hdr c).size - e.1 := by
    rw [chunkBufferSize, hof]
  have hleaf := (I.of_live ha.pos hc hl).2.1
  rw [← hec] at h1 h2
  exact ⟨c, hc, hec, h2, h1, by omega, by omega,
    fun x hx hx' => I.tree.own_of_childless hc hleaf hx hx'⟩

theorem ChunkRun.sound (h : ChunkRun Y S a s) (ha : PoolAlign a) :
    ∃ fl em, ChunkSound s fl em := by
  obtain ⟨rfl, fl, em, I⟩ := h
  have hh : chunkHeader = 36 := rfl
  refine ⟨fl, em, I.lists, ?_, ?_, ?_, ?_, ?_⟩
  · intro e he
    obtain ⟨c, -, -, -, h, -⟩ := I.buffer ha he
    exact h
  · intro e he
    obtain ⟨c, -, -, -, -, -, h, -⟩ := I.buffer ha he
    exact h
  · have hne : s.live.Pairwise (fun e d => e.1 ≠ d.1) := List.pairwise_map.mp I.keys
    refine hne.imp_of_mem (fun {e d} he hd hed => ?_)
    obtain ⟨c, hc, hec, h1, -, h2, -, h3⟩ := I.buffer ha he
    obtain ⟨c', hc', hdc, h1', -, h2', -, h3'⟩ := I.buffer ha hd
    have hcc : c ≠ c' := by
      rintro rfl
      exact hed (hec.trans hdc.symm)
    have hapart := I.tree.apart c hc c' hc' hcc
    by_contra hnot
    -- the larger of the two addresses lies in both
    exact hapart (max c c') (h3 _ (by omega) (by omega)) (h3' _ (by omega) (by omega))
  · intro e he
    obtain ⟨c, hc, -, h1, -, h2, -⟩ := I.buffer ha he
    obtain ⟨t, ht, htop, hle, hend⟩ := I.tree.rooted ha.pos c hc
    exact ⟨(t, (s.pool.hdr t).size), (I.held _).mpr ⟨ht, htop, rfl⟩, by simp only; omega,
      by simp only; omega⟩
  · intro e he d hd
    obtain ⟨c, hc, -, h1, -, h2, -, h3⟩ := I.buffer ha he
    have hdD : d ∈ chunkSet fl em := mem_chunkSet.mpr (List.mem_append.mp hd)
    by_cases hdc : d = c
    · exact Or.inr (hdc ▸ h1)
    · by_contra hnot
      have hown : ChunkOwn s.pool.align s.pool.hdr d (max c d) :=
        I.tree.own_header ha.pos hdD (by omega) (by omega)
      exact I.tree.apart c hc d hdD (Ne.symm hdc) (max c d) (h3 _ (by omega) (by omega)) hown

end Sound

/-- **Buffers are safe**, and every call returns, as long as the sizes fit. -/
theorem chunk_sound {k : Nat} (hk : 3 ≤ k) (hk' : k < 32) {hasRealSize : Bool} {s : ChunkState}
    (h : (chunkSystem (2 ^ k) hasRealSize).Reachable ChunkOk s) :
    (∃ fl em, ChunkSound s fl em) ∧ ∀ o, ChunkOk s o → ∃ s', chunkCall s o = some s' := by
  have ha := poolAlign_pow hk hk'
  have hrun : ChunkRun False False (2 ^ k) s := by
    refine ChunkRun.of_reachable ha (h.mono (fun _ _ => trivial) (fun s o _ ho => ?_))
    exact ⟨ho, False.elim, False.elim⟩
  refine ⟨hrun.sound ha, fun o ho => ?_⟩
  obtain ⟨s', heq, -⟩ := hrun.call ha ho False.elim False.elim
  exact ⟨s', heq⟩

/-- Two buffers, the older one freed. -/
theorem chunk_sound_twoBuffers : ∃ s, System.stepAll chunkCall (chunkStart8 true)
    [.alloc 8 0x1000 256, .alloc 100 0 0, .free 0x1050] = some s ∧
      ∃ fl em, ChunkSound s fl em := by
  obtain ⟨s, hs⟩ : ∃ s, System.stepAll chunkCall (chunkStart8 true)
      [.alloc 8 0x1000 256, .alloc 100 0 0, .free 0x1050] = some s :=
    Option.isSome_iff_exists.mp (by decide)
  exact ⟨s, hs, (chunk_sound (by decide) (by decide)
    (chunkStart8_reachable.stepAll _ (by decide) hs)).1⟩

/-- The size of the chunk for `0xFFFFFFFF` bytes wraps to 48. -/
theorem chunk_sound_wraps : ¬ ∀ s, (chunkSystem (2 ^ 3) true).Reachable ChunkLegal s →
    ∃ fl em, ChunkSound s fl em := by
  intro hall
  have hrun : (System.stepAll chunkCall (chunkStart8 true) [.alloc 0xFFFFFFFF 0x1000 256]).map
      (fun s => (s.live, chunkBufferSize s.pool 0x1050)) = some ([(0x1050, 0xFFFFFFFF)], 8) := by
    decide
  obtain ⟨s, hs, hobs⟩ := Option.map_eq_some_iff.mp hrun
  obtain ⟨hlive, hsize⟩ := Prod.mk.inj hobs
  obtain ⟨fl, em, hsound⟩ := hall s (chunkStart8_reachable.stepAll _ (by decide) hs)
  have hle := hsound.large (0x1050, 0xFFFFFFFF) (by rw [hlive]; exact List.mem_cons_self)
  rw [hsize] at hle
  exact absurd hle (by decide)

/-! ## 2. Regions -/

/-- Once no buffer is live, no chunk is left, and every region has been handed back once. -/
def ChunkReturned (s : ChunkState) : Prop :=
  s.live = [] → listEmpty s.pool.links .full = true ∧ listEmpty s.pool.links .empty = true ∧
    (tierObtained s.pool.tier).Perm (tierReturned s.pool.tier)

instance (s : ChunkState) : Decidable (ChunkReturned s) := inferInstanceAs (Decidable (_ → _ ∧ _))

theorem ChunkRun.returned {S : Prop} {a : Nat} {s : ChunkState} (h : ChunkRun True S a s) :
    ChunkReturned s := by
  obtain ⟨-, fl, em, I⟩ := h
  intro hnone
  have hempty : ∀ c, c ∉ chunkSet fl em := by
    intro c hc
    have htop : ∀ d ∈ chunkSet fl em, (s.pool.hdr d).parent = 0 := by
      intro d hd
      by_contra hp
      obtain ⟨e, he, -⟩ := I.allLive trivial d hd hp
      exact absurd (hnone ▸ he) List.not_mem_nil
    have hchild : (s.pool.hdr c).child ≠ 0 := fun h0 =>
      (I.tree.pos c hc).ne' (I.regions c hc (htop c hc) h0)
    obtain ⟨hmem, hpar, -⟩ := I.tree.youngest c hc hchild
    exact (I.tree.pos c hc).ne' (hpar.symm.trans (htop _ hmem))
  have hfl : fl = [] := List.eq_nil_iff_forall_not_mem.mpr
    (fun c hc => hempty c (mem_chunkSet.mpr (Or.inl hc)))
  have hem : em = [] := List.eq_nil_iff_forall_not_mem.mpr
    (fun c hc => hempty c (mem_chunkSet.mpr (Or.inr hc)))
  have hheld : tierHeld s.pool.tier = [] := List.eq_nil_iff_forall_not_mem.mpr
    (fun e he => hempty _ ((I.held e).mp he).1)
  have hperm := I.calls.perm
  rw [hheld, List.map_nil, List.append_nil] at hperm
  refine ⟨(listEmpty_iff I.lists.fst).mpr ?_, (listEmpty_iff I.lists.snd).mpr ?_, hperm⟩
  · rw [hfl, List.map_nil]
  · rw [hem, List.map_nil]

/-- **Everything is handed back**, if only youngest children are freed. -/
theorem chunk_returns {k : Nat} (hk : 3 ≤ k) (hk' : k < 32) {hasRealSize : Bool} {s : ChunkState}
    (h : (chunkSystem (2 ^ k) hasRealSize).Reachable
      (fun s o => ChunkOk s o ∧ ChunkStacked s o) s) : ChunkReturned s := by
  have hrun : ChunkRun True False (2 ^ k) s := by
    refine ChunkRun.of_reachable (poolAlign_pow hk hk')
      (h.mono (fun _ _ => trivial) (fun s o _ ho => ?_))
    exact ⟨ho.1, fun _ => ho.2, False.elim⟩
  exact hrun.returned

/-- Two buffers, the younger one freed first. -/
theorem chunk_returns_youngestFirst : ∃ s, System.stepAll chunkCall (chunkStart8 true)
    [.alloc 8 0x1000 256, .alloc 8 0 0, .free 0x1088, .free 0x1050] = some s ∧
      s.live = [] ∧ ChunkReturned s := by
  have hrun : (System.stepAll chunkCall (chunkStart8 true)
      [.alloc 8 0x1000 256, .alloc 8 0 0, .free 0x1088, .free 0x1050]).map ChunkState.live =
      some [] := by decide
  obtain ⟨s, hs, hlive⟩ := Option.map_eq_some_iff.mp hrun
  exact ⟨s, hs, hlive, chunk_returns (by decide) (by decide)
    (chunkStart8_reachable.stepAll _ (by decide) hs)⟩

/-- The other way round, the older buffer is never given back to the region. -/
theorem chunk_returns_oldestFirst : ¬ ∀ s, (chunkSystem (2 ^ 3) true).Reachable ChunkOk s →
    ChunkReturned s := by
  intro hall
  have hrun : (System.stepAll chunkCall (chunkStart8 true)
      [.alloc 8 0x1000 256, .alloc 8 0 0, .free 0x1050, .free 0x1088]).map
      (fun s => decide (ChunkReturned s)) = some false := by decide
  obtain ⟨s, hs, hobs⟩ := Option.map_eq_some_iff.mp hrun
  exact of_decide_eq_false hobs
    (hall s (chunkStart8_reachable.stepAll _ (by decide) hs))

/-! ## 3. Room -/

/-- The higher tier is asked for memory. -/
def ChunkAsks (s : ChunkPool) (size : Nat) : Prop :=
  ∃ region real s' p, chunkAlloc s size region real = some (s', p) ∧ s'.tier ≠ s.tier

/-- The free memory of the chunks that are no buffers, on the lists `fl` and `em`. -/
structure ChunkSorted (s : ChunkState) (fl em : List Nat) : Prop where
  lists : ListPair s.pool.links .chunk .full .empty fl em
  room : ∀ c ∈ fl ++ em, ¬ ChunkLive s.pool.align s.live c →
    (s.pool.hdr c).free = c + (s.pool.hdr c).size - (s.pool.hdr c).mem
  listed : ∀ c ∈ fl ++ em, chunkAllocSz s.pool 1 ≤ (s.pool.hdr c).free → c ∈ fl
  asks : ∀ size, size + (chunkHeader + (s.pool.align + s.pool.align)) ≤ 2 ^ 32 →
    ChunkAsks s.pool size → ∀ c ∈ fl ++ em, (s.pool.hdr c).free < chunkAllocSz s.pool size

section Sorted

variable {Y S : Prop} {a : Nat} {s : ChunkState} {p : ChunkPool} {live : List (Nat × Nat)}
  {fl em : List Nat} {size : Nat}

/-- The higher tier is asked only behind a search that has found nothing. -/
theorem ChunkInv.asks (I : ChunkInv Y S 0 p live fl em) (ha : PoolAlign p.align)
    (hfits : size + (chunkHeader + (p.align + p.align)) ≤ 2 ^ 32) (h : ChunkAsks p size) :
    0 < size ∧ ∀ c ∈ fl, (p.hdr c).free < chunkAllocSz p size := by
  obtain ⟨region, real, s', q, heq, hne⟩ := h
  rw [chunkAlloc, if_neg (by simp [I.supplied])] at heq
  by_cases h0 : size = 0
  · rw [if_pos h0, Option.some.injEq, Prod.mk.injEq] at heq
    exact absurd (by rw [heq.1]) hne
  refine ⟨Nat.pos_of_ne_zero h0, ?_⟩
  rcases I.search (chunkAllocSz p size) with ⟨-, hnone⟩ | ⟨c, hc, hc0, hfit, hfind⟩
  · exact hnone
  · obtain ⟨j, rfl⟩ : ∃ j, c = j + 1 := ⟨c - 1, by omega⟩
    obtain ⟨hdvd, hle⟩ := chunkAllocSz_spec ha.pos hfits
    obtain ⟨s₁, -, -, m, hsplit, hm, -, htier, -, -⟩ :=
      I.split ha.pos ha.dvd (Or.inl rfl) hc hdvd (Nat.pos_of_ne_zero h0) hle hfit
    simp only [if_neg h0, hfind, chunkAllocFrom, hsplit, if_neg hm, Option.some.injEq,
      Prod.mk.injEq] at heq
    exact absurd (heq.1 ▸ htier) hne

/-- Where there is a chunk, the smallest size does not wrap. -/
theorem ChunkInv.one_fits (I : ChunkInv Y S 0 p live fl em) {c : Nat} (hc : c ∈ chunkSet fl em) :
    1 + (chunkHeader + (p.align + p.align)) ≤ 2 ^ 32 := by
  have hkid : ∀ d ∈ chunkSet fl em, (p.hdr d).parent ≠ 0 →
      1 + (chunkHeader + (p.align + p.align)) ≤ 2 ^ 32 := by
    intro d hd hp
    have hle := Nat.le_of_dvd (I.tree.pos d hd) (I.tree.inside d hd hp).2.1
    have h1 := I.tree.room d hd
    have h2 := I.tree.bound d hd
    omega
  by_cases hp : (p.hdr c).parent = 0
  · have h0 : (p.hdr c).child ≠ 0 := fun h0 => (I.tree.pos c hc).ne' (I.regions c hc hp h0)
    obtain ⟨hmem, hpar, -⟩ := I.tree.youngest c hc h0
    exact hkid _ hmem (by rw [hpar]; exact (I.tree.pos c hc).ne')
  · exact hkid c hc hp

theorem ChunkRun.sorted (h : ChunkRun Y True a s) (ha : PoolAlign a) :
    ∃ fl em, ChunkSorted s fl em := by
  obtain ⟨rfl, fl, em, I⟩ := h
  have hempty : ∀ size, 0 < size → size + (chunkHeader + (s.pool.align + s.pool.align)) ≤ 2 ^ 32 →
      ∀ c ∈ em, (s.pool.hdr c).free < chunkAllocSz s.pool size := by
    intro size hpos hfits c hc
    have h1 := I.sorted trivial c hc (I.tree.pos c (mem_chunkSet.mpr (Or.inr hc))).ne'
    have h2 := (chunkAllocSz_spec ha.pos hfits).2
    omega
  refine ⟨fl, em, I.lists, ?_, ?_, ?_⟩
  · exact fun c hc => I.room c (mem_chunkSet.mpr (List.mem_append.mp hc))
  · intro c hc hfit
    rcases List.mem_append.mp hc with hc | hc
    · exact hc
    · have hone := I.one_fits (mem_chunkSet.mpr (Or.inr hc))
      exact absurd hfit (not_le.mpr (hempty 1 Nat.one_pos hone c hc))
  · intro size hfits hask c hc
    obtain ⟨hpos, hnone⟩ := I.asks ha hfits hask
    exact (List.mem_append.mp hc).elim (hnone c) (hempty size hpos hfits c)

end Sorted

/-- **No memory is stranded**, if no exhausted chunk is given memory back. -/
theorem chunk_sorted {k : Nat} (hk : 3 ≤ k) (hk' : k < 32) {hasRealSize : Bool} {s : ChunkState}
    (h : (chunkSystem (2 ^ k) hasRealSize).Reachable
      (fun s o => ChunkOk s o ∧ ChunkUnexhausted s o) s) : ∃ fl em, ChunkSorted s fl em := by
  have ha := poolAlign_pow hk hk'
  have hrun : ChunkRun False True (2 ^ k) s := by
    refine ChunkRun.of_reachable ha (h.mono (fun _ _ => trivial) (fun s o _ ho => ?_))
    exact ⟨ho.1, False.elim, fun _ => ho.2⟩
  exact hrun.sorted ha

/-- The younger of two buffers is freed, in a region that has more room. -/
theorem chunk_sorted_twoBuffers : ∃ s, System.stepAll chunkCall (chunkStart8 true)
    [.alloc 8 0x1000 256, .alloc 8 0 0, .free 0x1088] = some s ∧ ∃ fl em, ChunkSorted s fl em := by
  obtain ⟨s, hs⟩ : ∃ s, System.stepAll chunkCall (chunkStart8 true)
      [.alloc 8 0x1000 256, .alloc 8 0 0, .free 0x1088] = some s :=
    Option.isSome_iff_exists.mp (by decide)
  exact ⟨s, hs, chunk_sorted (by decide) (by decide)
    (chunkStart8_reachable.stepAll _ (by decide) hs)⟩

/-- The region is exhausted when the younger buffer is freed, and stays on `empty` with 160 free
bytes. -/
theorem chunk_sorted_exhausted : ¬ ∀ s, (chunkSystem (2 ^ 3) true).Reachable ChunkOk s →
    ∃ fl em, ChunkSorted s fl em := by
  intro hall
  have hrun : (System.stepAll chunkCall (chunkStart8 true)
      [.alloc 8 0x1000 256, .alloc 100 0 0, .free 0x1088]).map
      (fun s => ((s.pool.links .full).next, (s.pool.links .empty).next,
        (s.pool.links (.chunk 0x1028)).next, (s.pool.hdr 0x1000).free, chunkAllocSz s.pool 1)) =
      some (some .full, some (.chunk 0x1028), some (.chunk 0x1000), 160, 48) := by decide
  obtain ⟨s, hs, hobs⟩ := Option.map_eq_some_iff.mp hrun
  simp only [Prod.mk.injEq] at hobs
  obtain ⟨hfull, hempty, hnext, hfree, hsz⟩ := hobs
  obtain ⟨fl, em, hsorted⟩ := hall s (chunkStart8_reachable.stepAll _ (by decide) hs)
  have hfl : fl = [] := by
    have hnil := (hsorted.lists.fst.next_self_iff).mp hfull
    exact List.map_eq_nil_iff.mp hnil
  have hmem : 0x1000 ∈ em := by
    match em, hsorted.lists.snd.path with
    | [], hp => exact absurd (hp.1.symm.trans hempty) (by decide)
    | [c], hp =>
      obtain rfl : c = 0x1028 := by simpa using hp.1.symm.trans hempty
      exact absurd (hp.2.2.1.symm.trans hnext) (by decide)
    | c :: d :: em, hp =>
      obtain rfl : c = 0x1028 := by simpa using hp.1.symm.trans hempty
      obtain rfl : d = 0x1000 := by simpa using hp.2.2.1.symm.trans hnext
      simp
  have hlist := hsorted.listed 0x1000 (List.mem_append_right _ hmem) (by rw [hsz, hfree]; decide)
  rw [hfl] at hlist
  exact absurd hlist List.not_mem_nil

end FlightOs
