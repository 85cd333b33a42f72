/-
# From a buffer back to its header

`chunk_setup` rounds the end of a header up to the alignment of the pool, and there the memory of the
chunk begins.  `chunk_free` goes the other way: it subtracts the header and one alignment, and rounds
up.  The two are inverse only if the header itself lies at a multiple of the alignment and its size
does not.  The first holds of every buffer but not of every region, and the second not of the
alignment of a word.

* `headerFound_start_iff`: where the header of a chunk is found again.
* `ChunkRun.of_reachable_pow`: the pool stays in order at every alignment, since a buffer whose header
  is not found is never freed.
* `chunk_header_iff`: in which states the headers of all buffers and regions are found.
-/
import FlightOs.Chunk.Contract

namespace FlightOs

/-- `chunk_free` gets past its check, with the header `c` for the address. -/
structure HeaderFound (s : ChunkPool) (c addr : Nat) : Prop where
  header : chunkOfAddr s addr = c
  check : addr = chunkAlign s (wadd (chunkOfAddr s addr) chunkHeader)

section Header

variable {Y S : Prop} {a k r : Nat} {hasRealSize : Bool} {p : ChunkPool} {s s' : ChunkState}
  {live : List (Nat × Nat)} {fl em : List Nat} {o : ChunkOp} {c : Nat}

/-! ## 1. The address -/

/-- Whatever is found is aligned. -/
theorem align_dvd_chunkOfAddr (s : ChunkPool) (addr : Nat) : s.align ∣ chunkOfAddr s addr :=
  Nat.dvd_mul_left _ _

/-- **The header is missed** if its size is a multiple of the alignment: the chunk before it is
looked at. -/
theorem chunkOfAddr_before (ha : 0 < p.align) (hd : p.align ∣ chunkHeader) (hdvd : p.align ∣ c)
    (hpos : 0 < c) (hb : c + (chunkHeader + p.align) < 2 ^ 32) :
    chunkStart p.align c = c + chunkHeader ∧ chunkOfAddr p (chunkStart p.align c) = c - p.align := by
  have hh : chunkHeader = 36 := rfl
  have hle : p.align ≤ c := Nat.le_of_dvd hpos hdvd
  have hstart : chunkStart p.align c = c + chunkHeader := by
    rw [chunkStart, wadd_of_lt (by omega)]
    exact walign_of_dvd ha (by omega) (Nat.dvd_add hdvd hd)
  refine ⟨hstart, ?_⟩
  have hsub : wsub (wsub (c + chunkHeader) chunkHeader) p.align = c - p.align := by
    rw [wsub_of_le (a := c + chunkHeader) (by omega) (by omega), Nat.add_sub_cancel,
      wsub_of_le (by omega) hle]
  rw [hstart, chunkOfAddr, chunkAlign, hsub]
  exact walign_of_dvd ha (by omega) (Nat.dvd_sub hdvd (Nat.dvd_refl _))

/-- **Where the header is found**: at a multiple of the alignment, from eight bytes on. -/
theorem headerFound_start_iff (hk : 2 ≤ k) (hal : p.align = 2 ^ k) (hpos : 0 < c)
    (hb : c + (chunkHeader + p.align) < 2 ^ 32) :
    HeaderFound p c (chunkStart p.align c) ↔ 3 ≤ k ∧ 2 ^ k ∣ c := by
  have ha : 0 < p.align := hal ▸ Nat.two_pow_pos k
  constructor
  · intro hf
    have hdvd : p.align ∣ c := hf.header ▸ align_dvd_chunkOfAddr p _
    refine ⟨?_, hal ▸ hdvd⟩
    by_contra hlt
    obtain rfl : k = 2 := by omega
    have hd : p.align ∣ chunkHeader := hal ▸ (by decide)
    have hbefore := (chunkOfAddr_before ha hd hdvd hpos hb).2
    rw [hf.header] at hbefore
    omega
  · rintro ⟨h3, hdvd⟩
    have hno : ¬ p.align ∣ chunkHeader := by
      have hlt : k < 32 := (Nat.pow_lt_pow_iff_right (by decide)).mp (by omega : 2 ^ k < 2 ^ 32)
      exact hal ▸ (poolAlign_pow h3 hlt).header
    have hof : chunkOfAddr p (chunkStart p.align c) = c :=
      chunkOfAddr_start ha hno (hal ▸ hdvd) hpos hb
    exact ⟨hof, by rw [hof]; rfl⟩

/-! ## 2. Runs at every alignment -/

/-- A live buffer whose header is missed stops the machine. -/
theorem ChunkInv.free_missed (I : ChunkInv Y S r p live fl em) (ha : 0 < p.align)
    (hd : p.align ∣ chunkHeader) {e : Nat × Nat} (he : e ∈ live) : chunkFree p e.1 = none := by
  obtain ⟨c, hc, -, hec, hdvd, hlt, -⟩ := I.of_buffer ha he
  have hh : chunkHeader = 36 := rfl
  have h1 := I.tree.room c hc
  have h2 := I.tree.bound c hc
  have hpos := I.tree.pos c hc
  have hle : p.align ≤ c := Nat.le_of_dvd hpos hdvd
  obtain ⟨hstart, hof⟩ := chunkOfAddr_before ha hd hdvd hpos (by omega)
  have hcheck : chunkAlign p (wadd (c - p.align) chunkHeader) = c - p.align + chunkHeader := by
    rw [chunkAlign, wadd_of_lt (by omega)]
    exact walign_of_dvd ha (by omega) (Nat.dvd_add (Nat.dvd_sub hdvd (Nat.dvd_refl _)) hd)
  rw [hec, chunkFree, show chunkFuel = chunkFuel - 1 + 1 from rfl, chunkFreeFrom,
    if_neg (by omega), if_neg (by simp [I.supplied])]
  simp only [hof, hcheck]
  rw [if_pos (by omega)]

/-- **The step**, at any power of two. -/
theorem ChunkRun.call_pow (h : ChunkRun Y S a s) (hpos : 0 < a) (hdvd : a ∣ 2 ^ 32) (ho : ChunkOk s o)
    (hY : Y → ChunkStacked s o) (hS : S → ChunkUnexhausted s o) (hstep : chunkCall s o = some s') :
    ChunkRun Y S a s' := by
  by_cases hd : a ∣ chunkHeader
  · obtain ⟨rfl, fl, em, I⟩ := h
    cases o with
    | alloc size region real =>
      obtain ⟨pool, p, fl', em', heq, hal, I'⟩ := I.alloc hpos hdvd ho.1.2 ho.2
      have hcall : chunkCall s (.alloc size region real) =
          some ⟨pool, addBlock s.live p size⟩ := by
        rw [chunkCall, heq]
        rfl
      obtain rfl := Option.some.inj (hcall.symm.trans hstep)
      exact ⟨hal, fl', em', I'⟩
    | free addr =>
      rcases ho.1 with rfl | ⟨e, he, rfl⟩
      · have hcall : chunkCall s (.free 0) = some ⟨s.pool, dropBlock s.live 0⟩ := rfl
        obtain rfl := Option.some.inj (hcall.symm.trans hstep)
        refine ⟨rfl, fl, em, ?_⟩
        rw [dropBlock_of_forall (fun e he => ?_)]
        · exact I
        · obtain ⟨c, -, -, -, -, hlt, -⟩ := I.of_buffer hpos he
          omega
      · have hcall : chunkCall s (.free e.1) = none := by
          rw [chunkCall, I.free_missed hpos hd he]
          rfl
        rw [hcall] at hstep
        cases hstep
  · obtain ⟨s'', heq, hrun⟩ := h.call ⟨hpos, hdvd, hd⟩ ho hY hS
    obtain rfl := Option.some.inj (heq.symm.trans hstep)
    exact hrun

/-- **The run.** -/
theorem ChunkRun.of_reachable_pow (hk : k < 32)
    (h : (chunkSystem (2 ^ k) hasRealSize).Reachable ChunkOk s) :
    ChunkRun False False (2 ^ k) s := by
  have hdvd : 2 ^ k ∣ 2 ^ 32 := Nat.pow_dvd_pow 2 hk.le
  exact h.invariant (fun s hs => ChunkRun.init hs) (fun s o s' hs ho hstep =>
    hs.call_pow (Nat.two_pow_pos k) hdvd ho False.elim False.elim hstep)

end Header

/-! ## 3. All headers -/

/-- The header of every live buffer is found, and that of every region from where its data starts. -/
structure ChunkHeadersFound (s : ChunkState) (fl em : List Nat) : Prop where
  lists : ListPair s.pool.links .chunk .full .empty fl em
  buffers : ∀ e ∈ s.live, ∃ c ∈ fl ++ em, (s.pool.hdr c).mem = e.1 ∧ HeaderFound s.pool c e.1
  regions : ∀ e ∈ tierHeld s.pool.tier,
    HeaderFound s.pool e.1 (chunkStart s.pool.align e.1)

section Found

variable {k : Nat} {s : ChunkState} {fl em : List Nat}

/-- The header of a buffer is found, whatever the region. -/
theorem ChunkInv.buffer_found (I : ChunkInv False False 0 s.pool s.live fl em) (hk : 3 ≤ k)
    (hal : s.pool.align = 2 ^ k) {e : Nat × Nat} (he : e ∈ s.live) :
    ∃ c ∈ fl ++ em, (s.pool.hdr c).mem = e.1 ∧ HeaderFound s.pool c e.1 := by
  have ha : 0 < s.pool.align := hal ▸ Nat.two_pow_pos k
  obtain ⟨c, hc, hl, hec, hdvd, -⟩ := I.of_buffer ha he
  have h1 := I.tree.room c hc
  have h2 := I.tree.bound c hc
  have hmem : (s.pool.hdr c).mem = e.1 := by
    rw [hec]
    exact I.tree.childless c hc (I.of_live ha hc hl).2.1
  refine ⟨c, List.mem_append.mpr (mem_chunkSet.mp hc), hmem, ?_⟩
  rw [hec]
  exact (headerFound_start_iff (by omega) hal (I.tree.pos c hc) (by omega)).mpr ⟨hk, hal ▸ hdvd⟩

/-- A region is found from where its data starts if it is aligned. -/
theorem ChunkInv.region_found_iff (I : ChunkInv False False 0 s.pool s.live fl em) (hk : 2 ≤ k)
    (hal : s.pool.align = 2 ^ k) {e : Nat × Nat} (he : e ∈ tierHeld s.pool.tier) :
    HeaderFound s.pool e.1 (chunkStart s.pool.align e.1) ↔ 3 ≤ k ∧ 2 ^ k ∣ e.1 := by
  obtain ⟨hc, -, -⟩ := (I.held e).mp he
  have h1 := I.tree.room e.1 hc
  have h2 := I.tree.bound e.1 hc
  exact headerFound_start_iff hk hal (I.tree.pos e.1 hc) (by omega)

/-- All headers of a pool are found if its regions are at multiples of an alignment from eight on. -/
theorem ChunkRun.headers_found_iff (h : ChunkRun False False (2 ^ k) s) (hk : 2 ≤ k) :
    (∃ fl em, ChunkHeadersFound s fl em) ↔
      ∀ e ∈ tierHeld s.pool.tier, 3 ≤ k ∧ 2 ^ k ∣ e.1 := by
  obtain ⟨hal, fl, em, I⟩ := h
  constructor
  · rintro ⟨-, -, -, -, hregions⟩ e he
    exact (I.region_found_iff hk hal he).mp (hregions e he)
  · intro hall
    refine ⟨fl, em, I.lists, fun e he => ?_, fun e he => ?_⟩
    · -- there is a region, the one around the buffer
      have ha : 0 < s.pool.align := hal ▸ Nat.two_pow_pos k
      obtain ⟨c, hc, -⟩ := I.of_buffer ha he
      obtain ⟨t, ht, htop, -⟩ := I.tree.rooted ha c hc
      have hheld := (I.held (t, (s.pool.hdr t).size)).mpr ⟨ht, htop, rfl⟩
      exact I.buffer_found (hall _ hheld).1 hal he
    · exact (I.region_found_iff hk hal he).mpr (hall e he)

end Found

/-- **Headers are found** from where the data of a chunk starts, if the chunk is at a multiple of an
alignment of at least eight, and only then; and from every address that `chunk_free` is given or gives
to itself, if the regions are. -/
theorem chunk_header_iff {k : Nat} (hk : 2 ≤ k) (hk' : k < 32) {hasRealSize : Bool} {s : ChunkState}
    (h : (chunkSystem (2 ^ k) hasRealSize).Reachable ChunkOk s) :
    (∀ p : ChunkPool, p.align = 2 ^ k → ∀ c, 0 < c → c + (chunkHeader + p.align) < 2 ^ 32 →
      (HeaderFound p c (chunkStart p.align c) ↔ 3 ≤ k ∧ 2 ^ k ∣ c)) ∧
    ((∃ fl em, ChunkHeadersFound s fl em) ↔
      ∀ e ∈ tierHeld s.pool.tier, 3 ≤ k ∧ 2 ^ k ∣ e.1) := by
  refine ⟨fun p hal c hpos hb => headerFound_start_iff hk hal hpos hb, ?_⟩
  exact (ChunkRun.of_reachable_pow hk' h).headers_found_iff hk

/-- A buffer in a region at a multiple of eight. -/
theorem chunk_header_iff_aligned : ∃ s, System.stepAll chunkCall (chunkStart8 true)
    [.alloc 8 0x1000 256] = some s ∧
      ((∃ fl em, ChunkHeadersFound s fl em) ↔ ∀ e ∈ tierHeld s.pool.tier, 3 ≤ 3 ∧ 2 ^ 3 ∣ e.1) := by
  obtain ⟨s, hs⟩ : ∃ s, System.stepAll chunkCall (chunkStart8 true) [.alloc 8 0x1000 256] = some s :=
    Option.isSome_iff_exists.mp (by decide)
  exact ⟨s, hs, (chunk_header_iff (by decide) (by decide)
    (chunkStart8_reachable.stepAll _ (by decide) hs)).2⟩

/-- **A region at a multiple of four**, in a pool of alignment eight: the word before its header is
taken for the header, and the check does not see it. -/
theorem chunk_header_misses : ¬ ∀ s, (chunkSystem (2 ^ 3) true).Reachable ChunkOk s →
    (∀ e ∈ tierHeld s.pool.tier, 4 ∣ e.1) → ∃ fl em, ChunkHeadersFound s fl em := by
  intro hall
  have hrun : (System.stepAll chunkCall (chunkStart8 true) [.alloc 8 0x1004 256]).map
      (fun s => (tierHeld s.pool.tier, chunkOfAddr s.pool (chunkStart s.pool.align 0x1004))) =
      some ([(0x1004, 256)], 0x1000) := by decide
  obtain ⟨s, hs, hobs⟩ := Option.map_eq_some_iff.mp hrun
  obtain ⟨hheld, hof⟩ := Prod.mk.inj hobs
  have hword : ∀ e ∈ tierHeld s.pool.tier, 4 ∣ e.1 := by
    rw [hheld]
    decide
  obtain ⟨fl, em, hfound⟩ := hall s (chunkStart8_reachable.stepAll _ (by decide) hs) hword
  have hregion := (hfound.regions (0x1004, 256) (by rw [hheld]; exact List.mem_cons_self)).header
  rw [hof] at hregion
  exact absurd hregion (by decide)

end FlightOs
