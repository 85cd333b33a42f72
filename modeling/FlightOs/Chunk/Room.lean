/-
# Room for the split

`chunk_alloc` asks the higher tier for `alloc_sz` bytes, the size of the new chunk, and then splits a
chunk of that size off the free memory of the region.  But the region has a header of its own, behind
which `chunk_setup` starts to count: a region that is as large as asked for has not enough left,
`chunk_split` returns `NULL`, and `chunk_alloc` reads a field of it.  Without `real_alloc_size` this
happens to every region.

* `chunkAllocFrom_eq`: what comes of a chunk with room.
* `chunk_alloc_split_iff`: when a call returns, and `NULL` only on behalf of the higher tier.  Sizes
  that wrap are in it: there the header behind the chosen place may end at address zero.
* `chunkServed_iff_of_fits`: for all other sizes, the room behind the header of the region decides.
-/
import FlightOs.Chunk.Header

namespace FlightOs

/-- The higher tier was asked, and gave nothing or less. -/
def TierFailed (s s' : ChunkPool) (size region real : Nat) : Prop :=
  s'.tier ≠ s.tier ∧
    (region = 0 ∨ s.regionSize (chunkAllocSz s size) real < chunkAllocSz s size)

/-- **What `chunk_alloc` promises**: it returns, and `NULL` only for no bytes or if the higher tier
failed. -/
def ChunkAllocKept (s : ChunkPool) (size region real : Nat) : Prop :=
  ∃ s' p, chunkAlloc s size region real = some (s', p) ∧
    (p = 0 → size = 0 ∨ TierFailed s s' size region real)

/-- The first chunk of a list with `n` free bytes. -/
def chunkRoom (s : ChunkPool) (fl : List Nat) (n : Nat) : Option Nat :=
  fl.find? (fun c => n ≤ (s.hdr c).free)

/-- A region of `sz` bytes has `n` bytes behind its header, as they are counted in words, and neither
the header nor the new one ends at address zero. -/
structure RegionServes (s : ChunkPool) (n region sz : Nat) : Prop where
  room : n ≤ wsub (wadd region sz) (chunkStart s.align region)
  start : chunkStart s.align region ≠ 0
  mem : chunkStart s.align (chunkStart s.align region) ≠ 0

/-- A chunk on the list serves the call, or else the region does, if the higher tier gives one. -/
def ChunkServed (s : ChunkPool) (fl : List Nat) (size region sz : Nat) : Prop :=
  size = 0 ∨ (∃ c, chunkRoom s fl (chunkAllocSz s size) = some c ∧
    chunkStart s.align (s.hdr c).mem ≠ 0) ∨
  (chunkRoom s fl (chunkAllocSz s size) = none ∧ (region = 0 ∨ sz < chunkAllocSz s size ∨
    RegionServes s (chunkAllocSz s size) region sz))

section Room

variable {Y S : Prop} {r : Nat} {s : ChunkPool} {live : List (Nat × Nat)} {fl em : List Nat}
  {c n size region real sz : Nat}

/-! ## 1. The split -/

@[simp] theorem chunkClassify_hdr : (chunkClassify s c).hdr = s.hdr := by
  unfold chunkClassify
  split <;> rfl

@[simp] theorem chunkClassify_tier : (chunkClassify s c).tier = s.tier := by
  unfold chunkClassify
  split <;> rfl

/-- **A chunk without room** is split all the same. -/
theorem chunkAllocFrom_null (h : (s.hdr c).free < n) : chunkAllocFrom s c n = none := by
  simp only [chunkAllocFrom, chunkSplit, if_pos h, if_true]

/-- **A chunk with room** gives the memory behind a new header. -/
theorem chunkAllocFrom_eq (h : n ≤ (s.hdr c).free) (hne : c ≠ (s.hdr c).mem)
    (h0 : (s.hdr c).mem ≠ 0) :
    ∃ s', chunkAllocFrom s c n = some (s', chunkStart s.align (s.hdr c).mem) ∧ s'.tier = s.tier := by
  rw [chunkAllocFrom, chunkSplit_eq h hne]
  simp only [if_neg h0, chunkClassify_hdr, Function.update_of_ne hne.symm, Function.update_self,
    childHdr]
  exact ⟨_, rfl, chunkClassify_tier⟩

/-- A chunk whose memory starts at address zero is no better. -/
theorem chunkAllocFrom_zero (h : n ≤ (s.hdr c).free) (hne : c ≠ (s.hdr c).mem)
    (h0 : (s.hdr c).mem = 0) : chunkAllocFrom s c n = none := by
  rw [chunkAllocFrom, chunkSplit_eq h hne]
  exact if_pos h0

/-- No chunk starts where its memory does. -/
theorem chunkStart_ne {a : Nat} (ha : 0 < a) (ha31 : a ≤ 2 ^ 31) :
    chunkStart a c ≠ c := by
  have hh : chunkHeader = 36 := rfl
  intro heq
  have hle : chunkStart a c ≤ wadd (wadd c chunkHeader) (a - 1) := Nat.div_mul_le_self _ a
  rw [heq] at hle
  by_cases hw : c + (chunkHeader + a) ≤ 2 ^ 32
  · by_cases hlast : c + (chunkHeader + a) = 2 ^ 32
    · -- the end of the header rounds up into the last place
      have hadd : wadd c chunkHeader = c + chunkHeader := wadd_of_lt (by omega)
      have hge := (walign_spec (x := c + chunkHeader) ha (by omega)).2.1
      rw [chunkStart, hadd] at heq
      omega
    · have hge := (chunkStart_spec (a := a) (c := c) ha (by omega)).2.1
      omega
  · -- the sum has wrapped, so it is smaller than what was added
    unfold wadd at hle
    omega

/-! ## 2. The two ways to a chunk -/

/-- The search comes to the first chunk with room. -/
theorem ChunkInv.find_room (I : ChunkInv Y S r s live fl em) (n : Nat) :
    chunkFindFrom s n chunkFuel (s.links .full).next = some ((chunkRoom s fl n).getD 0) :=
  chunkFindFrom_eq I.lists.fst.path I.length_lt

/-- A chunk of the pool serves the call unless its new header ends at address zero. -/
theorem ChunkInv.kept_room (I : ChunkInv Y S r s live fl em) (ha : 0 < s.align) (h0 : size ≠ 0)
    (hroom : chunkRoom s fl (chunkAllocSz s size) = some c) :
    ChunkAllocKept s size region real ↔ chunkStart s.align (s.hdr c).mem ≠ 0 := by
  have hmem : c ∈ chunkSet fl em := mem_chunkSet.mpr (Or.inl (List.mem_of_find?_eq_some hroom))
  have hfit : chunkAllocSz s size ≤ (s.hdr c).free := by simpa using List.find?_some hroom
  have hc0 : c ≠ 0 := (I.tree.pos c hmem).ne'
  have hstart := (I.tree.start ha hmem).2.1
  have hle := I.tree.start_le c hmem
  have hh : chunkHeader = 36 := rfl
  obtain ⟨s', heq, htier⟩ := chunkAllocFrom_eq (s := s) (c := c) hfit (by omega) (by omega)
  have hcall : chunkAlloc s size region real = some (s', chunkStart s.align (s.hdr c).mem) := by
    obtain ⟨j, rfl⟩ : ∃ j, c = j + 1 := ⟨c - 1, by omega⟩
    rw [chunkAlloc, if_neg (by simp [I.supplied]), if_neg h0]
    simp only [I.find_room, hroom, Option.getD_some, heq]
  constructor
  · rintro ⟨s₁, p, hp, hnull⟩ hz
    rw [hcall, hz] at hp
    obtain ⟨rfl, rfl⟩ := Prod.mk.inj (Option.some.inj hp)
    rcases hnull rfl with hzero | hfail
    · exact h0 hzero
    · exact hfail.1 htier
  · intro hne
    exact ⟨s', _, hcall, fun hz => absurd hz hne⟩

/-- What comes of a region with a header of its own. -/
theorem regionServes_iff {s₁ : ChunkPool} (hal : s₁.align = s.align)
    (hmem : (s₁.hdr region).mem = chunkStart s.align region)
    (hfree : (s₁.hdr region).free = wsub (wadd region sz) (chunkStart s.align region))
    (hne : chunkStart s.align region ≠ region) :
    (∃ s' p, chunkAllocFrom s₁ region n = some (s', p) ∧ p ≠ 0) ↔ RegionServes s n region sz := by
  rw [← hmem] at hne
  by_cases hfit : n ≤ (s₁.hdr region).free
  · by_cases h0 : (s₁.hdr region).mem = 0
    · rw [chunkAllocFrom_zero hfit hne.symm h0]
      refine iff_of_false ?_ (fun h => h.start (hmem ▸ h0))
      rintro ⟨_, _, h, -⟩
      cases h
    · obtain ⟨s', heq, -⟩ := chunkAllocFrom_eq hfit hne.symm h0
      rw [heq, hal, hmem]
      constructor
      · rintro ⟨s₂, p, hp, hp0⟩
        obtain ⟨rfl, rfl⟩ := Prod.mk.inj (Option.some.inj hp)
        exact ⟨hfree ▸ hfit, hmem ▸ h0, hp0⟩
      · exact fun h => ⟨s', _, rfl, h.mem⟩
  · rw [chunkAllocFrom_null (not_le.mp hfit)]
    refine iff_of_false ?_ (fun h => hfit (hfree.symm ▸ h.room))
    rintro ⟨_, _, h, -⟩
    cases h

/-- **A new region** serves the call if there is room in it behind its own header. -/
theorem ChunkInv.kept_region (I : ChunkInv Y S r s live fl em) (ha : 0 < s.align)
    (ha31 : s.align ≤ 2 ^ 31) (h0 : size ≠ 0)
    (hroom : chunkRoom s fl (chunkAllocSz s size) = none) :
    ChunkAllocKept s size region real ↔
      region = 0 ∨ s.regionSize (chunkAllocSz s size) real < chunkAllocSz s size ∨
        RegionServes s (chunkAllocSz s size) region
          (s.regionSize (chunkAllocSz s size) real) := by
  have hcall : chunkAlloc s size region real =
      if (chunkGrabNew s (chunkAllocSz s size) region real).2 = 0 then
        some ((chunkGrabNew s (chunkAllocSz s size) region real).1, 0)
      else chunkAllocFrom (chunkGrabNew s (chunkAllocSz s size) region real).1
        (chunkGrabNew s (chunkAllocSz s size) region real).2 (chunkAllocSz s size) := by
    rw [chunkAlloc, if_neg (by simp [I.supplied]), if_neg h0]
    simp only [I.find_room, hroom, Option.getD_none]
  have hgrab := chunkGrabNew_eq s (chunkAllocSz s size) region real
  have htier := chunkGrabNew_tier s (chunkAllocSz s size) region real
  have hfailed : (chunkGrabNew s (chunkAllocSz s size) region real).1.tier ≠ s.tier :=
    fun heq => absurd htier (by rw [heq]; exact lt_irrefl _)
  by_cases hr : region = 0
  · rw [if_pos hr] at hgrab
    rw [if_pos (by rw [hgrab])] at hcall
    exact iff_of_true ⟨_, 0, hcall, fun _ => Or.inr ⟨hfailed, Or.inl hr⟩⟩ (Or.inl hr)
  rw [if_neg hr] at hgrab
  by_cases hlt : s.regionSize (chunkAllocSz s size) real < chunkAllocSz s size
  · have hreal : s.hasRealSize = true := by
      by_contra hno
      rw [ChunkPool.regionSize, if_neg hno] at hlt
      exact absurd hlt (lt_irrefl _)
    rw [if_pos ⟨hreal, hlt⟩] at hgrab
    rw [if_pos (by rw [hgrab])] at hcall
    exact iff_of_true ⟨_, 0, hcall, fun _ => Or.inr ⟨hfailed, Or.inr hlt⟩⟩ (Or.inr (Or.inl hlt))
  · rw [if_neg (fun h => hlt h.2)] at hgrab
    have hnot : ∀ s', ¬ TierFailed s s' size region real := fun s' h => h.2.elim hr hlt
    have hkept : (∃ s' p, chunkAlloc s size region real = some (s', p) ∧ p ≠ 0) ↔
        ChunkAllocKept s size region real :=
      exists_congr fun s' => exists_congr fun p => and_congr_right fun _ =>
        ⟨fun hp hz => absurd hz hp, fun hp hz => (hp hz).elim h0 (hnot s')⟩
    rw [← hkept, or_iff_right hr, or_iff_right hlt]
    rw [if_neg (by rw [hgrab]; exact hr), hgrab] at hcall
    rw [hcall]
    refine regionServes_iff rfl ?_ ?_ (chunkStart_ne ha ha31)
    · simp only [Function.update_self]
    · simp only [Function.update_self]

/-- **The promise is kept** if somebody serves the call, and only then. -/
theorem ChunkInv.kept_iff (I : ChunkInv Y S r s live fl em) (ha : 0 < s.align)
    (ha31 : s.align ≤ 2 ^ 31) :
    ChunkAllocKept s size region real ↔
      ChunkServed s fl size region (s.regionSize (chunkAllocSz s size) real) := by
  unfold ChunkServed
  by_cases h0 : size = 0
  · refine iff_of_true ⟨s, 0, ?_, fun _ => Or.inl h0⟩ (Or.inl h0)
    rw [chunkAlloc, if_neg (by simp [I.supplied]), if_pos h0]
  rw [or_iff_right h0]
  cases hroom : chunkRoom s fl (chunkAllocSz s size) with
  | none =>
    rw [I.kept_region ha ha31 h0 hroom]
    simp
  | some c =>
    rw [I.kept_room ha h0 hroom]
    simp

/-! ## 3. Sizes that do not wrap -/

/-- Where the size does not wrap, no header ends at address zero, and the sums are those of numbers. -/
theorem ChunkInv.served_iff_of_fits (I : ChunkInv Y S r s live fl em) (ha : 0 < s.align)
    (hT : TierAnswers s region sz) (hpos : 0 < size)
    (hfits : size + (chunkHeader + (s.align + s.align)) ≤ 2 ^ 32) :
    ChunkServed s fl size region sz ↔
      (∃ c ∈ fl, chunkAllocSz s size ≤ (s.hdr c).free) ∨ region = 0 ∨ sz < chunkAllocSz s size ∨
        chunkStart s.align region + chunkAllocSz s size ≤ region + sz := by
  have hn := (chunkAllocSz_spec ha hfits).2
  have hh : chunkHeader = 36 := rfl
  unfold ChunkServed
  rw [or_iff_right hpos.ne']
  generalize chunkAllocSz s size = n at hn
  cases hroom : chunkRoom s fl n with
  | some c =>
    have hc : c ∈ fl := List.mem_of_find?_eq_some hroom
    have hfit : n ≤ (s.hdr c).free := by simpa using List.find?_some hroom
    have hmem : c ∈ chunkSet fl em := mem_chunkSet.mpr (Or.inl hc)
    have hdead : ¬ ChunkLive s.align live c := fun hl => by
      have h0 := (I.of_live ha hmem hl).2.2
      omega
    have hfree := I.room c hmem hdead
    have hb := I.tree.bound c hmem
    have hstart := (chunkStart_spec (a := s.align) (c := (s.hdr c).mem) ha (by omega)).2.1
    exact iff_of_true (Or.inl ⟨c, rfl, by omega⟩) (Or.inl ⟨c, hc, hfit⟩)
  | none =>
    have hnone : ¬ ∃ c ∈ fl, n ≤ (s.hdr c).free := by
      rintro ⟨c, hc, hfit⟩
      exact absurd hfit (by simpa using List.find?_eq_none.mp hroom c hc)
    rw [or_iff_right hnone]
    simp only [reduceCtorEq, false_and, exists_false, false_or, true_and]
    by_cases hr : region = 0
    · simp [hr]
    by_cases hlt : sz < n
    · simp [hlt]
    rw [or_iff_right hr, or_iff_right hlt, or_iff_right hr, or_iff_right hlt]
    have hb := (hT hr).1
    obtain ⟨-, h1, h2⟩ := chunkStart_spec (a := s.align) (c := region) ha (by omega)
    have hsub : wsub (wadd region sz) (chunkStart s.align region) =
        region + sz - chunkStart s.align region := by
      rw [wadd_of_lt hb, wsub_of_le hb (by omega)]
    constructor
    · intro h
      have hle := h.room
      rw [hsub] at hle
      omega
    · intro hle
      have h3 := (chunkStart_spec (a := s.align) (c := chunkStart s.align region) ha (by omega)).2.1
      exact ⟨by omega, by omega, by omega⟩

end Room

/-! ## 4. Whole runs -/

section Runs

variable {k size region real : Nat} {hasRealSize : Bool} {s : ChunkState} {fl em : List Nat}

/-- **A split fails** in no state of a run, and `NULL` is the higher tier's, if a chunk of the pool has
room, or the region behind its own header; and only then. -/
theorem chunk_alloc_split_iff (hk : k < 32)
    (h : (chunkSystem (2 ^ k) hasRealSize).Reachable ChunkOk s)
    (L : ListPair s.pool.links .chunk .full .empty fl em) (size region real : Nat) :
    ChunkAllocKept s.pool size region real ↔
      ChunkServed s.pool fl size region
        (s.pool.regionSize (chunkAllocSz s.pool size) real) := by
  obtain ⟨hal, fl', em', I⟩ := ChunkRun.of_reachable_pow hk h
  obtain ⟨rfl, -⟩ := I.lists.unique (fun _ _ he => ChunkNode.chunk.inj he) L
  have hle : 2 ^ k ≤ 2 ^ 31 := Nat.pow_le_pow_right (by decide) (Nat.le_of_lt_succ hk)
  exact I.kept_iff (hal ▸ Nat.two_pow_pos k) (hal ▸ hle)

/-- A size that does not wrap. -/
theorem chunk_alloc_fits_iff (hk : k < 32)
    (h : (chunkSystem (2 ^ k) hasRealSize).Reachable ChunkOk s)
    (L : ListPair s.pool.links .chunk .full .empty fl em)
    (hlegal : ChunkLegal s (.alloc size region real)) (hpos : 0 < size)
    (hfits : size + (chunkHeader + (s.pool.align + s.pool.align)) ≤ 2 ^ 32) :
    ChunkAllocKept s.pool size region real ↔
      (∃ c ∈ fl, chunkAllocSz s.pool size ≤ (s.pool.hdr c).free) ∨ region = 0 ∨
        s.pool.regionSize (chunkAllocSz s.pool size) real < chunkAllocSz s.pool size ∨
        chunkStart s.pool.align region + chunkAllocSz s.pool size ≤
          region + s.pool.regionSize (chunkAllocSz s.pool size) real := by
  obtain ⟨hal, fl', em', I⟩ := ChunkRun.of_reachable_pow hk h
  obtain ⟨rfl, -⟩ := I.lists.unique (fun _ _ he => ChunkNode.chunk.inj he) L
  have hle : 2 ^ k ≤ 2 ^ 31 := Nat.pow_le_pow_right (by decide) (Nat.le_of_lt_succ hk)
  have ha : 0 < s.pool.align := hal ▸ Nat.two_pow_pos k
  rw [I.kept_iff ha (hal ▸ hle)]
  exact I.served_iff_of_fits ha hlegal.2 hpos hfits

end Runs

/-- A pool that has no chunk yet, and a region with room. -/
theorem chunk_alloc_split_iff_fresh :
    ChunkAllocKept (chunkStart8 true).pool 8 0x1000 256 ↔
      ChunkServed (chunkStart8 true).pool [] 8 0x1000
        ((chunkStart8 true).pool.regionSize (chunkAllocSz (chunkStart8 true).pool 8) 256) := by
  have hreach : (chunkSystem (2 ^ 3) true).Reachable ChunkOk (chunkStart8 true) :=
    chunkStart8_reachable
  exact chunk_alloc_split_iff (by decide) hreach chunkPoolInit_lists 8 0x1000 256

/-- **A region as large as asked for** is too small. -/
theorem chunk_alloc_split_null : ¬ ∀ s, (chunkSystem (2 ^ 3) true).Reachable ChunkOk s →
    ∀ size < 2 ^ 32, ∀ region real, TierAnswers s.pool region real →
      chunkAllocSz s.pool size ≤ real → ChunkAllocKept s.pool size region real := by
  intro hall
  obtain ⟨s', p, heq, -⟩ := hall (chunkStart8 true) chunkStart8_reachable 8 (by decide) 0x1000 56
    (by decide) (by decide)
  have hnone : chunkAlloc (chunkStart8 true).pool 8 0x1000 56 = none := by
    have hnull : (chunkAlloc (chunkStart8 true).pool 8 0x1000 56).isNone := by decide
    exact Option.isNone_iff_eq_none.mp hnull
  rw [hnone] at heq
  cases heq

end FlightOs
