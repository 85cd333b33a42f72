/-
# `chunk_free` keeps the invariant

The function does one of three things with a live buffer.  The youngest child of a chunk is merged
back into it (`ChunkInv.upmerge`); if that was the last child of a region, the region is handed
back (`ChunkInv.release`); and any other buffer becomes a chunk from which more can be cut off
(`ChunkInv.reuse`).

The parameters of the invariant ask for less than the function does: `Y` stays true as long as only
youngest children are freed, and `S` as long as no exhausted chunk gets memory back.
-/
import FlightOs.Chunk.Alloc

namespace FlightOs

/-- The buffer is the youngest child of its parent. -/
def FreesYoungest (s : ChunkPool) (addr : Nat) : Prop :=
  (s.hdr (s.hdr (chunkOfAddr s addr)).parent).child = chunkOfAddr s addr

/-- The buffer is the last one in its region. -/
def FreesLast (s : ChunkPool) (addr : Nat) : Prop :=
  FreesYoungest s addr ∧ (s.hdr (s.hdr (chunkOfAddr s addr)).parent).refcnt = 1

/-- A region that becomes empty starts at a multiple of the alignment. -/
def FreeFits (s : ChunkPool) (addr : Nat) : Prop :=
  FreesLast s addr → s.align ∣ (s.hdr (chunkOfAddr s addr)).parent

/-- No chunk gets memory back while it is exhausted, unless it is handed back. -/
def FreeSorted (s : ChunkPool) (addr : Nat) : Prop :=
  FreesYoungest s addr → ¬ FreesLast s addr →
    chunkHeader + s.align < (s.hdr (s.hdr (chunkOfAddr s addr)).parent).free

section Free

variable {Y S : Prop} {r : Nat} {s : ChunkPool} {live : List (Nat × Nat)} {fl em : List Nat}
  {c p addr : Nat}

/-! ## 1. The address -/

/-- The header of a buffer is found again, if the alignment does not divide its size. -/
theorem chunkOfAddr_start (ha : 0 < s.align) (hno : ¬ s.align ∣ chunkHeader)
    (hdvd : s.align ∣ c) (hpos : 0 < c) (hb : c + (chunkHeader + s.align) < 2 ^ 32) :
    chunkOfAddr s (chunkStart s.align c) = c := by
  obtain ⟨h1, h2, h3⟩ := chunkStart_spec (a := s.align) (c := c) ha hb
  obtain ⟨q, hq⟩ := hdvd
  obtain ⟨k, hk⟩ := h1
  have hle : s.align ≤ c := Nat.le_of_dvd hpos ⟨q, hq⟩
  have hh : chunkHeader = 36 := rfl
  have hne : chunkStart s.align c ≠ c + chunkHeader := by
    intro heq
    refine hno ((Nat.dvd_add_right ⟨q, hq⟩).mp ?_)
    rw [← heq]
    exact ⟨k, hk⟩
  have hx : wsub (wsub (chunkStart s.align c) chunkHeader) s.align =
      chunkStart s.align c - chunkHeader - s.align := by
    rw [wsub_of_le (a := chunkStart s.align c) (by omega) (by omega),
      wsub_of_le (by omega) (by omega)]
  obtain ⟨⟨j, hj⟩, h5, h6⟩ := walign_spec (x := chunkStart s.align c - chunkHeader - s.align) ha
    (by omega)
  rw [chunkOfAddr, chunkAlign, hx]
  -- two multiples less than one alignment apart
  have hlt1 : s.align * q < s.align * (j + 1) := by
    rw [Nat.mul_succ, ← hj, ← hq]
    omega
  have hlt2 : s.align * j < s.align * (q + 1) := by
    rw [Nat.mul_succ, ← hj, ← hq]
    omega
  have h7 := Nat.lt_of_mul_lt_mul_left hlt1
  have h8 := Nat.lt_of_mul_lt_mul_left hlt2
  rw [hj, hq, show j = q by omega]

theorem ChunkInv.chunkOfAddr_start (I : ChunkInv Y S r s live fl em) (ha : 0 < s.align)
    (hno : ¬ s.align ∣ chunkHeader) (hc : c ∈ chunkSet fl em) (hdvd : s.align ∣ c) :
    chunkOfAddr s (chunkStart s.align c) = c := by
  have h1 := I.tree.room c hc
  have h2 := I.tree.bound c hc
  exact FlightOs.chunkOfAddr_start ha hno hdvd (I.tree.pos c hc) (by omega)

/-! ## 2. The youngest child -/

/-- The header of the parent behind `chunkUpmerge`. -/
def mergeHdr (s : ChunkPool) (p c : Nat) : ChunkHdr :=
  { s.hdr p with
    mem := walign c s.align
    free := wsub (wadd p (s.hdr p).size) c
    refcnt := wsub (s.hdr p).refcnt 1
    child := (s.hdr c).sibling }

theorem chunkUpmerge_eq (hne : p ≠ c) : ∃ v, chunkUpmerge s p c =
    { s with
      hdr := Function.update (Function.update s.hdr p (mergeHdr s p c)) c v
      links := listDel s.links (.chunk c) } := by
  refine ⟨{ s.hdr c with size := wadd (wsub (s.hdr p).size (s.hdr c).size) 1 }, ?_⟩
  simp only [chunkUpmerge, ChunkPool.set, chunkAlign, mergeHdr, Function.update_self,
    Function.update_idem, Function.update_of_ne hne.symm]

namespace ChunkInv

/-- **The merge**: one buffer less, and its memory is the parent's. -/
theorem upmerge (I : ChunkInv Y S 0 s live fl em) (ha : 0 < s.align) (ha' : s.align ∣ 2 ^ 32)
    (hc : c ∈ chunkSet fl em) (hl : ChunkLive s.align live c) (hp : (s.hdr c).parent = p)
    (hy : (s.hdr p).child = c)
    (hS : S → (s.hdr p).refcnt ≠ 1 → chunkHeader + s.align < (s.hdr p).free) :
    ∃ fl' em' r, ChunkInv Y S r (chunkUpmerge s p c) (dropBlock live (chunkStart s.align c)) fl' em' ∧
      (chunkUpmerge s p c).align = s.align ∧ p ∈ chunkSet fl' em' ∧
      ((chunkUpmerge s p c).hdr p).refcnt = (s.hdr p).refcnt - 1 ∧
      (r ≠ 0 → r = p ∧ ((chunkUpmerge s p c).hdr p).refcnt = 0) := by
  obtain ⟨hp0, hleaf, -⟩ := I.of_live ha hc hl
  rw [hp] at hp0
  obtain ⟨hpD, hdvd, hstart, hstop⟩ := I.tree.inside c hc (hp ▸ hp0)
  rw [hp] at hpD hstart hstop
  have hnone := I.tree.kids_of_childless hc hleaf
  have hpc : p ≠ c := by
    have h := I.tree.parent_lt ha hc (hp ▸ hp0)
    omega
  have hbc := I.tree.bound c hc
  have hroomc := I.tree.room c hc
  have hbp := I.tree.bound p hpD
  have hmle := I.tree.mem_le p hpD
  have hh : chunkHeader = 36 := rfl
  have hkid : c ∈ chunkKids s.hdr (chunkSet fl em) p := mem_chunkKids.mpr ⟨hc, hp⟩
  have href := I.tree.refcnt p hpD
  have hcard := Finset.card_pos.mpr ⟨c, hkid⟩
  have hself : mergeHdr s p c = { s.hdr p with
      mem := c
      free := p + (s.hdr p).size - c
      refcnt := (s.hdr p).refcnt - 1
      child := (s.hdr c).sibling } := by
    have hlt := I.tree.refcnt_lt hpD
    rw [mergeHdr, walign_of_dvd_of_lt ha (by omega) hdvd ha', wadd_of_lt hbp,
      wsub_of_le hbp (by omega), wsub_of_le (by omega) (by omega)]
  obtain ⟨v, heq⟩ := chunkUpmerge_eq (s := s) hpc
  obtain ⟨fl', em', L', hset, hem⟩ := listDel_chunk I.lists hc
  have hhdrp : (chunkUpmerge s p c).hdr p = mergeHdr s p c := by
    rw [heq]
    exact (Function.update_of_ne hpc _ _).trans (Function.update_self _ _ _)
  have hhdr : ∀ d ∈ chunkSet fl em, d ≠ c → d ≠ p → (chunkUpmerge s p c).hdr d = s.hdr d := by
    intro d _ hdc hdp
    rw [heq]
    exact (Function.update_of_ne hdc _ _).trans (Function.update_of_ne hdp _ _)
  have hparent : ∀ d ∈ chunkSet fl em, d ≠ c →
      ((chunkUpmerge s p c).hdr d).parent = (s.hdr d).parent ∧
      ((chunkUpmerge s p c).hdr d).size = (s.hdr d).size := by
    intro d hd hdc
    by_cases hdp : d = p
    · rw [hdp, hhdrp, hself]
      exact ⟨rfl, rfl⟩
    · rw [hhdr d hd hdc hdp]
      exact ⟨rfl, rfl⟩
  have hT : ChunkTree s.align (chunkUpmerge s p c).hdr ((chunkSet fl em).erase c) :=
    I.tree.merge hc hp hp0 hy hleaf (hhdrp.trans hself) hhdr
  have hpD' : p ∈ (chunkSet fl em).erase c := Finset.mem_erase.mpr ⟨hpc, hpD⟩
  have halign : (chunkUpmerge s p c).align = s.align := by rw [heq]
  have htier : (chunkUpmerge s p c).tier = s.tier := by rw [heq]
  have hpdead : ¬ ChunkLive s.align live p := by
    intro h
    have h0 := (I.of_live ha hpD h).2.1
    rw [hy] at h0
    exact (I.tree.pos c hc).ne' h0
  refine ⟨fl', em', if ((chunkUpmerge s p c).hdr p).refcnt = 0 then p else 0, ?_, halign, ?_, ?_,
    ?_⟩
  · refine ⟨?_, ?_, ?_, ?_, ?_, ?_, ?_, dropBlock_map_nodup I.keys, ?_, ?_, ?_⟩
    · rw [heq]
      exact I.supplied
    · rw [heq]
      exact L'
    · rw [halign, hset]
      exact hT
    · rw [htier]
      exact I.calls
    · intro e
      rw [htier, hset, I.held e, Finset.mem_erase]
      constructor
      · rintro ⟨h1, h2, h3⟩
        have hec : e.1 ≠ c := by
          rintro hec
          rw [hec, hp] at h2
          exact hp0 h2
        rw [(hparent _ h1 hec).1, (hparent _ h1 hec).2]
        exact ⟨⟨hec, h1⟩, h2, h3⟩
      · rintro ⟨⟨hec, h1⟩, h2, h3⟩
        rw [(hparent _ h1 hec).1] at h2
        rw [(hparent _ h1 hec).2] at h3
        exact ⟨h1, h2, h3⟩
    · rw [hset]
      intro d hd hd0 hch
      obtain ⟨hdc, hdD⟩ := Finset.mem_erase.mp hd
      by_cases hdp : d = p
      · subst hdp
        have hk0 := hT.refcnt d hd
        rw [hT.kids_of_childless hd hch, Finset.card_empty, hd0, if_pos rfl] at hk0
        rw [if_pos hk0]
      · rw [hhdr d hdD hdc hdp] at hd0 hch
        exact absurd (I.regions d hdD hd0 hch) (I.tree.pos d hdD).ne'
    · rw [hset, halign]
      intro d hd hl'
      obtain ⟨hdc, hdD⟩ := Finset.mem_erase.mp hd
      by_cases hdp : d = p
      · rw [hdp, hhdrp, hself]
      · rw [hhdr d hdD hdc hdp]
        exact I.room d hdD (fun h => hl' (I.live_drop ha hc hdD hdc h))
    · rw [hset, halign]
      intro e he
      obtain ⟨he, hec⟩ := mem_dropBlock.mp he
      obtain ⟨d, hd, h1, h2, h3, h4, h5⟩ := I.buffers e he
      have hdc : d ≠ c := by
        rintro rfl
        exact hec h4
      have hdp : d ≠ p := by
        rintro rfl
        exact hpdead ⟨e, he, h4⟩
      refine ⟨d, Finset.mem_erase.mpr ⟨hdc, hd⟩, ?_⟩
      rw [hhdr d hd hdc hdp]
      exact ⟨h1, h2, h3, h4, h5⟩
    · rw [hset, halign]
      intro hY d hd hd0
      obtain ⟨hdc, hdD⟩ := Finset.mem_erase.mp hd
      rw [(hparent d hdD hdc).1] at hd0
      exact I.live_drop ha hc hdD hdc (I.allLive hY d hdD hd0)
    · rw [halign]
      intro hS' d hd hdr
      have hdD : d ∈ (chunkSet fl em).erase c := hset ▸ mem_chunkSet.mpr (Or.inr hd)
      obtain ⟨hdc, hdD⟩ := Finset.mem_erase.mp hdD
      have hold := I.sorted hS' d (hem d hd) (I.tree.pos d hdD).ne'
      by_cases hdp : d = p
      · subst hdp
        have href' : ((chunkUpmerge s d c).hdr d).refcnt = (s.hdr d).refcnt - 1 := by
          rw [hhdrp, hself]
        by_cases h1 : (s.hdr d).refcnt = 1
        · exact absurd (if_pos (by omega)).symm hdr
        · have hlt := hS hS' h1
          omega
      · rw [hhdr d hdD hdc hdp]
        exact hold
  · rw [hset]
    exact hpD'
  · rw [hhdrp, hself]
  · intro h
    by_cases h0 : ((chunkUpmerge s p c).hdr p).refcnt = 0
    · exact ⟨if_pos h0, h0⟩
    · exact absurd (if_neg h0) h

/-! ## 3. The region -/

/-- A chunk without references is a region without children. -/
theorem empty_region (I : ChunkInv Y S r s live fl em) (hpD : p ∈ chunkSet fl em)
    (h0 : (s.hdr p).refcnt = 0) :
    (s.hdr p).parent = 0 ∧ chunkKids s.hdr (chunkSet fl em) p = ∅ := by
  have href := I.tree.refcnt p hpD
  have htop : (s.hdr p).parent = 0 := by
    by_contra h
    rw [if_neg h] at href
    omega
  rw [if_pos htop] at href
  exact ⟨htop, Finset.card_eq_zero.mp (by omega)⟩

/-- The call of `chunk_free` for the memory of an empty region finds the region. -/
theorem chunkFreeFrom_region (I : ChunkInv Y S r s live fl em) (ha : 0 < s.align)
    (hno : ¬ s.align ∣ chunkHeader) (hpD : p ∈ chunkSet fl em) (hdvd : s.align ∣ p)
    (h0 : (s.hdr p).refcnt = 0) (k : Nat) : chunkFreeFrom (k + 1) s (s.hdr p).mem =
      some { s with tier := .free p :: s.tier, links := listDel s.links (.chunk p) } := by
  obtain ⟨htop, hnone⟩ := I.empty_region hpD h0
  have hmem : (s.hdr p).mem = chunkStart s.align p :=
    I.tree.childless p hpD (I.tree.child_of_kids hpD hnone)
  have hstart := (I.tree.start ha hpD).2.1
  have hh : chunkHeader = 36 := rfl
  have hof := I.chunkOfAddr_start ha hno hpD hdvd
  have hcheck : chunkStart s.align p = chunkAlign s (wadd p chunkHeader) := rfl
  rw [chunkFreeFrom, hmem, if_neg (by omega), if_neg (by simp [I.supplied])]
  simp only [hof]
  rw [if_neg (not_not.mpr hcheck), if_pos htop, if_neg (not_not.mpr h0)]

/-- **The release**: an empty region is handed back. -/
theorem release (I : ChunkInv Y S r s live fl em) (hr : r = 0 ∨ r = p)
    (hpD : p ∈ chunkSet fl em) (h0 : (s.hdr p).refcnt = 0) :
    ∃ fl' em', ChunkInv Y S 0
      { s with tier := .free p :: s.tier, links := listDel s.links (.chunk p) } live fl' em' := by
  obtain ⟨htop, hnone⟩ := I.empty_region hpD h0
  obtain ⟨fl', em', L', hset, hem⟩ := listDel_chunk I.lists hpD
  have hheld : (p, (s.hdr p).size) ∈ tierHeld s.tier := (I.held _).mpr ⟨hpD, htop, rfl⟩
  refine ⟨fl', em', I.supplied, L', ?_, ?_, ?_, ?_, ?_, I.keys, ?_, ?_, ?_⟩
  · rw [hset]
    exact I.tree.drop htop hnone
  · exact I.calls.free (List.mem_map_of_mem (f := Prod.fst) hheld)
  · intro e
    rw [tierHeld, mem_dropBlock, hset, Finset.mem_erase, I.held e]
    tauto
  · rw [hset]
    intro d hd hd0 hch
    obtain ⟨hdp, hdD⟩ := Finset.mem_erase.mp hd
    have hdr := I.regions d hdD hd0 hch
    exact hdr.trans (hr.resolve_right (fun e => hdp (hdr.trans e)))
  · rw [hset]
    exact fun d hd => I.room d (Finset.mem_of_mem_erase hd)
  · rw [hset]
    intro e he
    obtain ⟨d, hd, h1, h⟩ := I.buffers e he
    refine ⟨d, Finset.mem_erase.mpr ⟨?_, hd⟩, h1, h⟩
    rintro rfl
    exact h1 htop
  · rw [hset]
    exact fun hY d hd => I.allLive hY d (Finset.mem_of_mem_erase hd)
  · intro hS d hd _
    have hdD : d ∈ (chunkSet fl em).erase p := hset ▸ mem_chunkSet.mpr (Or.inr hd)
    obtain ⟨hdp, hdD⟩ := Finset.mem_erase.mp hdD
    refine I.sorted hS d (hem d hd) ?_
    rintro rfl
    exact hr.elim (I.tree.pos d hdD).ne' hdp

/-- A region that has children keeps them. -/
theorem settle (I : ChunkInv Y S r s live fl em)
    (hr : r ≠ 0 → r = p ∧ (s.hdr p).refcnt = 0) (h0 : (s.hdr p).refcnt ≠ 0) :
    ChunkInv Y S 0 s live fl em := by
  obtain rfl : r = 0 := by
    by_contra h
    exact h0 (hr h).2
  exact I

/-! ## 4. Any other buffer -/

theorem chunkSetup_eq (s : ChunkPool) (c : Nat) : chunkSetup s c =
    { s with hdr := Function.update s.hdr c { s.hdr c with
      mem := chunkStart s.align c
      free := wsub (wadd c (s.hdr c).size) (chunkStart s.align c) } } := by
  simp only [chunkSetup, ChunkPool.set, chunkAlign, chunkStart, Function.update_self,
    Function.update_idem]

/-- **The reuse**: the buffer becomes a chunk with room. -/
theorem reuse (I : ChunkInv Y S 0 s live fl em) (ha : 0 < s.align) (hc : c ∈ chunkSet fl em)
    (hl : ChunkLive s.align live c) (hY : ¬ Y) :
    ∃ fl' em', ChunkInv Y S 0
      { chunkSetup s c with links := listMoveTail (chunkSetup s c).links (.chunk c) .full }
      (dropBlock live (chunkStart s.align c)) fl' em' := by
  obtain ⟨hp0, hleaf, -⟩ := I.of_live ha hc hl
  have hmem := I.tree.childless c hc hleaf
  have hmle := I.tree.mem_le c hc
  have hb := I.tree.bound c hc
  obtain ⟨fl', em', L', hset, hem⟩ := listMoveTail_chunk I.lists hc
  have hv : { s.hdr c with
      mem := chunkStart s.align c
      free := wsub (wadd c (s.hdr c).size) (chunkStart s.align c) } =
      { s.hdr c with free := c + (s.hdr c).size - (s.hdr c).mem } := by
    rw [wadd_of_lt hb, ← hmem, wsub_of_le hb hmle]
  have hhdr : ∀ d, ∃ f, (chunkSetup s c).hdr d = { s.hdr d with free := f } ∧
      (d ≠ c → f = (s.hdr d).free) ∧ (d = c → f = c + (s.hdr c).size - (s.hdr c).mem) := by
    intro d
    rw [chunkSetup_eq, hv]
    by_cases hdc : d = c
    · subst hdc
      exact ⟨_, Function.update_self _ _ _, fun h => absurd rfl h, fun _ => rfl⟩
    · exact ⟨(s.hdr d).free, Function.update_of_ne hdc _ _, fun _ => rfl, fun h => absurd h hdc⟩
  have halign : (chunkSetup s c).align = s.align := by rw [chunkSetup_eq]
  have htier : (chunkSetup s c).tier = s.tier := by rw [chunkSetup_eq]
  have hlinks : (chunkSetup s c).links = s.links := by rw [chunkSetup_eq]
  have hfields : ∀ d, ((chunkSetup s c).hdr d).parent = (s.hdr d).parent ∧
      ((chunkSetup s c).hdr d).child = (s.hdr d).child ∧
      ((chunkSetup s c).hdr d).size = (s.hdr d).size ∧
      ((chunkSetup s c).hdr d).mem = (s.hdr d).mem := by
    intro d
    obtain ⟨f, hf, -⟩ := hhdr d
    rw [hf]
    exact ⟨rfl, rfl, rfl, rfl⟩
  have hsame : ∀ d, d ≠ c → ((chunkSetup s c).hdr d).free = (s.hdr d).free := by
    intro d hdc
    obtain ⟨f, hf, h1, -⟩ := hhdr d
    rw [hf]
    exact h1 hdc
  refine ⟨fl', em', ?_, ?_, ?_, ?_, ?_, ?_, ?_, dropBlock_map_nodup I.keys, ?_, fun h => absurd h hY, ?_⟩
  · simp only [chunkSetup_eq]
    exact I.supplied
  · simp only [hlinks]
    exact L'
  · simp only [halign, hset]
    refine I.tree.congr (fun d _ => ?_)
    obtain ⟨f, hf, -⟩ := hhdr d
    exact ⟨f, hf⟩
  · simp only [htier]
    exact I.calls
  · intro e
    simp only [htier, hset, (hfields e.1).1, (hfields e.1).2.2.1]
    exact I.held e
  · simp only [hset]
    intro d hd
    simp only [(hfields d).1, (hfields d).2.1]
    exact I.regions d hd
  · simp only [hset, halign]
    intro d hd hl'
    rw [(hfields d).2.2.1, (hfields d).2.2.2]
    by_cases hdc : d = c
    · obtain ⟨f, hf, -, h2⟩ := hhdr d
      rw [hf, hdc]
      exact h2 hdc
    · rw [hsame d hdc]
      exact I.room d hd (fun h => hl' (I.live_drop ha hc hd hdc h))
  · simp only [hset, halign]
    intro e he
    obtain ⟨he, hec⟩ := mem_dropBlock.mp he
    obtain ⟨d, hd, h1, h2, h3, h4, h5⟩ := I.buffers e he
    have hdc : d ≠ c := by
      rintro rfl
      exact hec h4
    refine ⟨d, hd, ?_⟩
    rw [(hfields d).1, (hfields d).2.1, (hfields d).2.2.1, hsame d hdc]
    exact ⟨h1, h2, h3, h4, h5⟩
  · simp only [halign]
    intro hS d hd hd0
    obtain ⟨hdem, hdc⟩ := hem d hd
    rw [hsame d hdc]
    exact I.sorted hS d hdem hd0

/-! ## 5. The call -/

/-- **`chunk_free`** of a live buffer returns, with that buffer gone. -/
theorem free (I : ChunkInv Y S 0 s live fl em) (ha : 0 < s.align) (ha' : s.align ∣ 2 ^ 32)
    (hno : ¬ s.align ∣ chunkHeader) (haddr : addr = 0 ∨ ∃ e ∈ live, e.1 = addr)
    (hF : addr ≠ 0 → FreeFits s addr) (hY : Y → addr ≠ 0 → FreesYoungest s addr)
    (hS : S → addr ≠ 0 → FreeSorted s addr) :
    ∃ s' fl' em', chunkFree s addr = some s' ∧ s'.align = s.align ∧
      ChunkInv Y S 0 s' (dropBlock live addr) fl' em' := by
  have hfuel : chunkFuel = chunkFuel - 2 + 1 + 1 := rfl
  rw [chunkFree, hfuel, chunkFreeFrom]
  rcases haddr with rfl | ⟨e, he, rfl⟩
  · refine ⟨s, fl, em, if_pos rfl, rfl, ?_⟩
    rw [dropBlock_of_forall]
    · exact I
    · intro e he
      obtain ⟨c, -, -, -, -, hlt, -⟩ := I.of_buffer ha he
      omega
  obtain ⟨c, hc, hl, hec, hdvd, hlt, -⟩ := I.of_buffer ha he
  have h0 : e.1 ≠ 0 := by omega
  have hof : chunkOfAddr s e.1 = c := by
    rw [hec]
    exact I.chunkOfAddr_start ha hno hc hdvd
  have hF' := hF h0
  have hY' := fun h => hY h h0
  have hS' := fun h => hS h h0
  obtain ⟨hp0, -, -⟩ := I.of_live ha hc hl
  have hplt := I.tree.parent_lt ha hc hp0
  rw [if_neg h0, if_neg (by simp [I.supplied])]
  simp only [hof]
  have hcheck : e.1 = chunkAlign s (wadd c chunkHeader) := hec
  rw [if_neg (not_not.mpr hcheck), if_neg hp0, if_neg (by omega)]
  simp only [FreeFits, FreesLast, FreesYoungest, FreeSorted, hof] at hF' hY' hS'
  by_cases hy : (s.hdr (s.hdr c).parent).child = c
  · rw [if_pos hy]
    obtain ⟨fl', em', r, I', hal, hpD, href, hr⟩ :=
      I.upmerge ha ha' hc hl rfl hy (fun h h1 => hS' h hy (fun hh => h1 hh.2))
    rw [← hec] at I'
    by_cases h1 : ((chunkUpmerge s (s.hdr c).parent c).hdr (s.hdr c).parent).refcnt = 0
    · have hkid := (I.tree.refcnt _ (I.tree.inside c hc hp0).1)
      have hmem : c ∈ chunkKids s.hdr (chunkSet fl em) (s.hdr c).parent :=
        mem_chunkKids.mpr ⟨hc, rfl⟩
      have hpos := Finset.card_pos.mpr ⟨c, hmem⟩
      have hdvd' : s.align ∣ (s.hdr c).parent := hF' ⟨hy, by omega⟩
      rw [if_pos h1, I'.chunkFreeFrom_region (hal ▸ ha) (hal ▸ hno) hpD (hal ▸ hdvd') h1]
      have hr' : r = 0 ∨ r = (s.hdr c).parent := by
        by_cases h : r = 0
        · exact Or.inl h
        · exact Or.inr (hr h).1
      obtain ⟨fl'', em'', I''⟩ := I'.release hr' hpD h1
      exact ⟨_, fl'', em'', rfl, hal, I''⟩
    · rw [if_neg h1]
      exact ⟨_, fl', em', rfl, hal, I'.settle hr h1⟩
  · rw [if_neg hy]
    obtain ⟨fl', em', I'⟩ := I.reuse ha hc hl (fun h => hy (hY' h))
    rw [← hec] at I'
    exact ⟨_, fl', em', rfl, by rw [chunkSetup_eq], I'⟩

end ChunkInv

end Free

end FlightOs
