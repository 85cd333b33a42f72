/-
# Runs of a buddy pool

A pool is made once by `mm_init` and then serves calls of `mm_alloc` and `mm_free`.  The state
of a run carries, next to the pool, the blocks that the callers hold: the address that
`mm_alloc` returned, with the size that was asked for.  The callers' list is no part of the
kernel's memory; it is what "a live block" refers to.

* `mmInit_spec`: what `mm_init` leaves behind, from any contents of the pool's storage.
* `MmRun`: the invariant of a run.  The blocks of the callers are the busy blocks of `MmInv`.
* `MmRun.alloc`, `MmRun.free`: the two steps keep it, and what each does to the order array.

Which frees a run may contain is left open here; the conditions are those of the theorems in
`Mm/Safety.lean` and `Mm/Bookkeeping.lean`.
-/
import FlightOs.Lib.System
import FlightOs.Mm.Alloc
import FlightOs.Mm.Free

namespace FlightOs

/-! ## 1. Initialisation -/

/-- A memory area to make a pool from: an object of at least two bytes, not at the null
address, and with an address one past its end. -/
structure MmArea where
  base : Nat
  size : Nat
  granularity : Nat
  base_pos : 0 < base
  size_ge : 2 ≤ size
  fits : base + size < 2 ^ 32

theorem mmInitLists_ring (links : Links MmNode) : ∀ {n k : Nat}, k ≤ n →
    Ring (mmInitLists links n) (.blockOrder k) []
  | 0, k, hk => by
    obtain rfl : k = 0 := by omega
    exact initListHead_ring _ _
  | n + 1, k, hk => by
    rw [mmInitLists]
    by_cases hkn : k = n + 1
    · subst hkn
      exact initListHead_ring _ _
    · refine (mmInitLists_ring links (n := n) (by omega)).congr (fun x hx => ?_)
      rw [List.mem_singleton] at hx
      subst hx
      exact initListHead_frame _ (by simpa using hkn)

theorem mmNumBlocksTrackable_eq {maxOrder minOrder : Nat} (hmax : maxOrder < 32)
    (hle : minOrder ≤ maxOrder) :
    mmNumBlocksTrackable maxOrder minOrder = 2 ^ (maxOrder - minOrder) := by
  rw [mmNumBlocksTrackable, wshl_one hmax, wshl_one (by omega)]
  exact Nat.pow_div hle (by norm_num)

/-- The pool that `mm_init` starts from: one block, and that one allocated. -/
theorem mmInitPool_inv {p : MmPool} {base maxOrder minOrder : Nat} (hbase : 0 < base)
    (hfits : base + 2 ^ maxOrder < 2 ^ 32) (h3 : 3 ≤ minOrder) (hle : minOrder ≤ maxOrder) :
    MmInv (mmInitPool p base maxOrder minOrder) (insert ⟨0, maxOrder⟩ ∅) ∅ ∧
      MmClean (mmInitPool p base maxOrder minOrder) (insert ⟨0, maxOrder⟩ ∅) ∅ := by
  have hmax : maxOrder < 32 := by
    have h : 2 ^ maxOrder < 2 ^ 32 := by omega
    exact (Nat.pow_lt_pow_iff_right (by norm_num)).mp h
  have hn := mmNumBlocksTrackable_eq hmax hle
  have hpos : 0 < mmNumBlocksTrackable maxOrder minOrder := hn ▸ Nat.two_pow_pos _
  refine ⟨⟨⟨⟨hbase, hfits, h3, hle, hn⟩, ?tiling, ?disj, ?min, ?bits, ?orders, ?lists, ?lone⟩,
    ?live, ?alloc⟩, ?clean⟩
  case tiling =>
    have hset : {b : Blk | b ∈ insert (⟨0, maxOrder⟩ : Blk) (∅ : Finset Blk) ∨
        b ∈ (∅ : Finset Blk)} = {⟨0, maxOrder⟩} := by
      ext b
      simp
    rw [hset]
    exact Tiling.single maxOrder
  case disj => exact fun b _ => Finset.notMem_empty b
  case min =>
    rintro b (hb | hb)
    · rcases Finset.mem_insert.mp hb with rfl | hb
      · exact hle
      · exact absurd hb (Finset.notMem_empty b)
    · exact absurd hb (Finset.notMem_empty b)
  case bits =>
    intro i hi
    have hi' : i < (mmNumBlocksTrackable maxOrder minOrder + 31) / 32 * 32 := by
      have : i < mmNumBlocksTrackable maxOrder minOrder := hi
      omega
    simp only [mmInitPool, if_pos hi', Bool.false_eq_true, false_iff]
    rintro ⟨b, hb, -⟩
    exact Finset.notMem_empty b hb
  case orders => exact fun b hb => absurd hb (Finset.notMem_empty b)
  case lists =>
    refine ⟨fun k hk => ⟨[], mmInitLists_ring p.links hk, fun a => ?_⟩,
      fun b hb => absurd hb (Finset.notMem_empty b)⟩
    simp
  case lone => exact fun b hb => absurd hb (Finset.notMem_empty b)
  case live =>
    intro b hb
    rw [Finset.mem_insert] at hb
    rcases hb with rfl | hb
    · simp only [mmInitPool, Nat.zero_div, if_pos]
      exact Nat.mod_eq_of_lt (by omega)
    · exact absurd hb (Finset.notMem_empty b)
  case alloc => simpa [mmInitPool] using hn
  case clean =>
    intro i hi hi0
    have h0 : i = 0 := by
      by_contra hne
      have hi' : i < mmNumBlocksTrackable maxOrder minOrder := hi
      refine hi0 ?_
      simp only [mmInitPool, if_neg hne, if_pos hi']
    exact ⟨⟨0, maxOrder⟩, Or.inl (Finset.mem_insert_self _ _), by simp [h0]⟩

/-- Releasing the one block there is. -/
theorem mmFree_whole {mm mm' : Mm} (heq : mmFree mm mm.pool.base = mm')
    (h : MmInv mm.pool (insert ⟨0, mm.pool.maxOrder⟩ ∅) ∅)
    (hclean : MmClean mm.pool (insert ⟨0, mm.pool.maxOrder⟩ ∅) ∅) :
    MmInv mm'.pool ∅ {⟨0, mm'.pool.maxOrder⟩} ∧ MmClean mm'.pool ∅ {⟨0, mm'.pool.maxOrder⟩} ∧
      MmSame mm.pool mm'.pool := by
  obtain ⟨F', hinv, hsame, hcl⟩ := mmFree_live h (Finset.notMem_empty _)
  have hord := h.getAllocOrder (Finset.mem_insert_self _ _)
  rw [Nat.add_zero] at hinv hsame hcl hord
  rw [heq] at hinv hsame hcl
  have hbelow : mmFreeMergesBelow mm.pool mm.pool.base = false := by
    rw [mmFreeMergesBelow, hord, Nat.sub_self, mmMergesBelow]
  have hF := hinv.eq_single
  subst hF
  exact ⟨hinv, hcl.mpr ⟨hclean, hbelow⟩, hsame⟩

/-- A call of `mm_init` that succeeds hands one allocated block to `mm_free`. -/
theorem mmInit_ok {mm mm' : Mm} {base size granularity : Nat} (hsize : 2 ≤ size) (hfits : size < 2 ^ 32)
    (h : mmInit mm base size granularity = (mm', 0)) :
    ∃ k stat, 3 ≤ k ∧ k ≤ Nat.log2 size ∧
      mmFree ⟨mmInitPool mm.pool base (Nat.log2 size) k, stat⟩ base = mm' := by
  obtain ⟨hmax, hmax32, hpow⟩ := ilog2_rounddown (n := size) (by omega) (by omega)
  have hmax1 : 1 ≤ Nat.log2 size := (Nat.le_log2 (by omega)).mpr (by omega)
  have hsub : wsub (Nat.log2 size) 1 = Nat.log2 size - 1 := wsub_of_le (by omega) hmax1
  have hhalf : wshl 1 (Nat.log2 size - 1) = 2 ^ (Nat.log2 size - 1) := wshl_one (by omega)
  have h8 : ∀ {k : Nat}, 8 ≤ 2 ^ k → 3 ≤ k := fun {k} hk =>
    (Nat.pow_le_pow_iff_right (a := 2) (n := 3) (by norm_num)).mp hk
  -- the minimum order, raised to that of a link
  obtain ⟨g, hg⟩ : ∃ g, g = ilog2 (roundupPowOfTwo granularity) := ⟨_, rfl⟩
  have hg32 : g < 32 := hg ▸ ilog2_roundup_lt granularity
  obtain ⟨m, hm⟩ : ∃ m, m = if wshl 1 g < sizeofMmBlkLnk then
    ilog2 (roundupPowOfTwo sizeofMmBlkLnk) else g := ⟨_, rfl⟩
  have hm3 : 3 ≤ m := by
    rw [hm]
    split
    · decide
    · next hlt =>
      rw [wshl_one hg32] at hlt
      exact h8 (not_lt.mp hlt)
  simp only [mmInit, hmax, ← hg, ← hm, hsub] at h
  split at h
  · next hbad => simp [ENOMEM] at h
  · next hok =>
    obtain ⟨k, hk⟩ : ∃ k, k = if Nat.log2 size < m then Nat.log2 size - 1 else m := ⟨_, rfl⟩
    have hk3 : 3 ≤ k ∧ k ≤ Nat.log2 size := by
      rw [hk]
      split
      · next hlt =>
        have : ¬ wshl 1 (Nat.log2 size - 1) < sizeofMmBlkLnk := fun e => hok ⟨hlt, e⟩
        rw [hhalf] at this
        exact ⟨h8 (not_lt.mp this), Nat.sub_le _ _⟩
      · next hlt => exact ⟨hm3, not_lt.mp hlt⟩
    rw [← hk] at h
    exact ⟨k, _, hk3.1, hk3.2, (Prod.mk.inj h).1⟩

/-- **`mm_init`**, when it succeeds: the whole pool is one free block. -/
theorem mmInit_spec (A : MmArea) {mm mm' : Mm}
    (h : mmInit mm A.base A.size A.granularity = (mm', 0)) :
    MmInv mm'.pool ∅ {⟨0, mm'.pool.maxOrder⟩} ∧ MmClean mm'.pool ∅ {⟨0, mm'.pool.maxOrder⟩} ∧
      mm'.pool.base = A.base ∧ mm'.pool.maxOrder = Nat.log2 A.size := by
  have hsize := A.size_ge
  have hfits := A.fits
  have hpow : 2 ^ Nat.log2 A.size ≤ A.size := Nat.log2_self_le (by omega)
  obtain ⟨k, stat, hk3, hkle, hfree⟩ := mmInit_ok hsize (by omega) h
  obtain ⟨hinv, hclean⟩ := mmInitPool_inv (p := mm.pool) A.base_pos
    (show A.base + 2 ^ Nat.log2 A.size < 2 ^ 32 by omega) hk3 hkle
  obtain ⟨hinv', hclean', hsame⟩ := mmFree_whole hfree hinv hclean
  exact ⟨hinv', hclean', hsame.base, hsame.maxOrder⟩

/-! ## 2. The system -/

/-- A pool, the counters, and the blocks the callers hold: address and requested size. -/
structure MmState where
  mm : Mm
  live : List (Nat × Nat)

/-- A call of `mm_alloc` with a size, or of `mm_free` with an address. -/
inductive MmOp
  | alloc (size : Nat)
  | free (addr : Nat)

/-- The callers' bookkeeping is theirs; the pool is the kernel's. -/
def mmStep (s : MmState) : MmOp → MmState
  | .alloc size =>
    match mmAlloc s.mm size with
    | (mm, some addr) => ⟨mm, (addr, size) :: s.live⟩
    | (mm, none) => ⟨mm, s.live⟩
  | .free addr => ⟨mmFree s.mm addr, s.live.filter (fun e => e.1 ≠ addr)⟩

/-- The runs of a pool made from `A`: a successful `mm_init`, then calls in any order. -/
def mmSystem (A : MmArea) : System MmState MmOp where
  init s := s.live = [] ∧ ∃ mm, mmInit mm A.base A.size A.granularity = (s.mm, 0)
  step s o s' := s' = mmStep s o

/-- The address is the start of a live block. -/
def MmState.IsLive (s : MmState) (addr : Nat) : Prop := ∃ e ∈ s.live, e.1 = addr

/-- The block behind a live address: where it starts, and the order its size takes. -/
def liveBlk (mp : MmPool) (e : Nat × Nat) : Blk := ⟨e.1 - mp.base, mmReqOrder mp e.2⟩

/-- The live blocks. -/
def MmState.liveBlks (s : MmState) : Finset Blk := (s.live.map (liveBlk s.mm.pool)).toFinset

theorem MmState.mem_liveBlks {s : MmState} {b : Blk} :
    b ∈ s.liveBlks ↔ ∃ e ∈ s.live, liveBlk s.mm.pool e = b := by
  simp [MmState.liveBlks]

/-! ## 3. The invariant of a run -/

/-- The callers' blocks are the busy blocks, each held once. -/
structure MmRun (A : MmArea) (s : MmState) (F : Finset Blk) : Prop where
  inv : MmInv s.mm.pool s.liveBlks F
  addrs : (s.live.map Prod.fst).Nodup
  base_le : ∀ e ∈ s.live, s.mm.pool.base ≤ e.1
  base : s.mm.pool.base = A.base
  maxOrder : s.mm.pool.maxOrder = Nat.log2 A.size

namespace MmRun

variable {A : MmArea} {s : MmState} {F : Finset Blk}

theorem mem_live (h : MmRun A s F) {e : Nat × Nat} (he : e ∈ s.live) :
    liveBlk s.mm.pool e ∈ s.liveBlks ∧ s.mm.pool.base + (liveBlk s.mm.pool e).off = e.1 :=
  ⟨MmState.mem_liveBlks.mpr ⟨e, he, rfl⟩, Nat.add_sub_of_le (h.base_le e he)⟩

/-- Two live blocks with one address are the same. -/
theorem eq_of_addr (h : MmRun A s F) {e d : Nat × Nat} (he : e ∈ s.live) (hd : d ∈ s.live)
    (ha : e.1 = d.1) : e = d := List.inj_on_of_nodup_map h.addrs he hd ha

/-- A live block is known by where it starts. -/
theorem eq_of_liveBlk (h : MmRun A s F) {e d : Nat × Nat} (he : e ∈ s.live) (hd : d ∈ s.live)
    (hb : liveBlk s.mm.pool e = liveBlk s.mm.pool d) : e = d := by
  refine h.eq_of_addr he hd ?_
  rw [← (h.mem_live he).2, ← (h.mem_live hd).2, hb]

/-- A pool with the same constants names the same blocks. -/
theorem liveBlk_same {mp mp' : MmPool} (hs : MmSame mp mp') (e : Nat × Nat) :
    liveBlk mp' e = liveBlk mp e := by
  rw [liveBlk, liveBlk, mmReqOrder, mmReqOrder, hs.base, hs.minOrder]

theorem init (hinit : (mmSystem A).init s) :
    MmRun A s {⟨0, s.mm.pool.maxOrder⟩} ∧
      MmClean s.mm.pool s.liveBlks {⟨0, s.mm.pool.maxOrder⟩} := by
  obtain ⟨hlive, mm, hmm⟩ := hinit
  obtain ⟨hinv, hclean, hbase, hmax⟩ := mmInit_spec A hmm
  have hL : s.liveBlks = ∅ := by simp [MmState.liveBlks, hlive]
  refine ⟨⟨?_, ?_, ?_, hbase, hmax⟩, ?_⟩
  · rw [hL]
    exact hinv
  · simp [hlive]
  · simp [hlive]
  · rw [hL]
    exact hclean

/-- **A call of `mm_alloc` keeps the invariant**, and a clean order array. -/
theorem alloc (h : MmRun A s F) (size : Nat) :
    ∃ F', MmRun A (mmStep s (.alloc size)) F' ∧ (MmClean s.mm.pool s.liveBlks F →
      MmClean (mmStep s (.alloc size)).mm.pool (mmStep s (.alloc size)).liveBlks F') := by
  have hspec := mmAlloc_spec h.inv size
  rw [mmStep]
  match hm : mmAlloc s.mm size with
  | (mm', none) =>
    rw [hm] at hspec
    obtain ⟨hpool, -⟩ := hspec
    have hL : (⟨mm', s.live⟩ : MmState).liveBlks = s.liveBlks := by
      simp only [MmState.liveBlks, hpool]
    refine ⟨F, ⟨?_, h.addrs, ?_, ?_, ?_⟩, ?_⟩
    · rw [hL, hpool]
      exact h.inv
    · rw [hpool]
      exact h.base_le
    · rw [hpool]
      exact h.base
    · rw [hpool]
      exact h.maxOrder
    · rw [hL, hpool]
      exact id
  | (mm', some a) =>
    rw [hm] at hspec
    obtain ⟨c, F', rfl, hal⟩ := hspec
    have hsame := hal.same
    have hnew : liveBlk mm'.pool (s.mm.pool.base + c.off, size) = c := by
      rw [liveBlk_same hsame, liveBlk, Nat.add_sub_cancel_left, ← hal.ord]
    have hL : (⟨mm', (s.mm.pool.base + c.off, size) :: s.live⟩ : MmState).liveBlks =
        insert c s.liveBlks := by
      simp only [MmState.liveBlks, List.map_cons, List.toFinset_cons, hnew]
      rw [funext (liveBlk_same hsame)]
    refine ⟨F', ⟨?_, ?_, ?_, ?_, ?_⟩, ?_⟩
    · rw [hL]
      exact hal.inv
    · -- the new address is nobody's: a live block there would be the new one
      rw [List.map_cons, List.nodup_cons]
      refine ⟨fun hmem => hal.notMem ?_, h.addrs⟩
      obtain ⟨e, he, hea⟩ := List.mem_map.mp hmem
      obtain ⟨hbL, hba⟩ := h.mem_live he
      have hoff : (liveBlk s.mm.pool e).off = c.off := by
        have hea' : e.1 = s.mm.pool.base + c.off := hea
        omega
      have := hal.inv.uniq (Or.inl (Finset.mem_insert_of_mem hbL))
        (Or.inl (Finset.mem_insert_self _ _)) hoff
      exact this ▸ hbL
    · rw [hsame.base]
      intro e he
      rcases List.mem_cons.mp he with rfl | he
      · exact Nat.le_add_right _ _
      · exact h.base_le e he
    · exact hsame.base.trans h.base
    · exact hsame.maxOrder.trans h.maxOrder
    · rw [hL]
      exact hal.clean

/-- What `mm_free` makes of a pool when it releases a live block. -/
theorem freed (h : MmRun A s F) {e : Nat × Nat} (he : e ∈ s.live) {c : Blk}
    (hc : c = liveBlk s.mm.pool e) : ∃ F', MmInv (mmFree s.mm e.1).pool (s.liveBlks.erase c) F' ∧
      MmSame s.mm.pool (mmFree s.mm e.1).pool ∧
      (MmClean (mmFree s.mm e.1).pool (s.liveBlks.erase c) F' ↔
        MmClean s.mm.pool s.liveBlks F ∧ mmFreeMergesBelow s.mm.pool e.1 = false) := by
  obtain ⟨hbL, hba⟩ := h.mem_live he
  rw [← hc] at hbL hba
  have hins : insert c (s.liveBlks.erase c) = s.liveBlks := Finset.insert_erase hbL
  have hinv : MmInv s.mm.pool (insert c (s.liveBlks.erase c)) F := by
    rw [hins]
    exact h.inv
  obtain ⟨F', hinv', hsame, hclean⟩ := mmFree_live hinv (Finset.notMem_erase _ _)
  rw [hba] at hinv' hsame hclean
  rw [hins] at hclean
  exact ⟨F', hinv', hsame, hclean⟩

/-- **A call of `mm_free` on a live block keeps the invariant**; the order array stays clean if
the climb met no free buddy below. -/
theorem free (h : MmRun A s F) {addr : Nat} (ha : s.IsLive addr) :
    ∃ F', MmRun A (mmStep s (.free addr)) F' ∧
      (MmClean (mmStep s (.free addr)).mm.pool (mmStep s (.free addr)).liveBlks F' ↔
        MmClean s.mm.pool s.liveBlks F ∧ mmFreeMergesBelow s.mm.pool addr = false) := by
  obtain ⟨e, he, rfl⟩ := ha
  obtain ⟨c, hc⟩ : ∃ c, c = liveBlk s.mm.pool e := ⟨_, rfl⟩
  obtain ⟨F', hinv', hsame, hclean⟩ := h.freed he hc
  have hL : (mmStep s (.free e.1)).liveBlks = s.liveBlks.erase c := by
    ext b
    rw [MmState.mem_liveBlks, Finset.mem_erase, MmState.mem_liveBlks]
    simp only [mmStep, List.mem_filter, decide_eq_true_eq, liveBlk_same hsame]
    constructor
    · rintro ⟨d, ⟨hd, hda⟩, rfl⟩
      refine ⟨fun hdc => hda ?_, d, hd, rfl⟩
      rw [h.eq_of_liveBlk hd he (hdc.trans hc)]
    · rintro ⟨hbc, d, hd, rfl⟩
      refine ⟨d, ⟨hd, fun hda => hbc ?_⟩, rfl⟩
      rw [h.eq_of_addr hd he hda, hc]
  refine ⟨F', ⟨?_, ?_, ?_, ?_, ?_⟩, ?_⟩
  · rw [hL]
    exact hinv'
  · exact h.addrs.sublist (List.filter_sublist.map _)
  · intro d hd
    simp only [mmStep] at hd ⊢
    rw [hsame.base]
    exact h.base_le d (List.mem_of_mem_filter hd)
  · exact hsame.base.trans h.base
  · exact hsame.maxOrder.trans h.maxOrder
  · rw [hL]
    exact hclean

end MmRun

/-! ## 4. Concrete runs -/

instance (s : MmState) (addr : Nat) : Decidable (s.IsLive addr) :=
  inferInstanceAs (Decidable (∃ e ∈ s.live, e.1 = addr))

/-- Storage before `mm_init`, all of it zero. -/
def mmBlank : Mm where
  pool := ⟨0, 0, 0, 0, 0, fun _ => 0, fun _ => false, fun _ => ⟨none, none⟩⟩
  stat := ⟨0, 0, 0⟩

/-- The state after `mm_init` on blank storage. -/
def mmFresh (A : MmArea) : MmState := ⟨(mmInit mmBlank A.base A.size A.granularity).1, []⟩

/-- Every call of a list meets the condition when it is made. -/
def MmOk (ok : MmState → MmOp → Prop) : MmState → List MmOp → Prop
  | _, [] => True
  | s, o :: os => ok s o ∧ MmOk ok (mmStep s o) os

theorem mmFold_reachable {A : MmArea} {ok : MmState → MmOp → Prop} : ∀ (os : List MmOp)
    {s : MmState}, (mmSystem A).Reachable ok s → MmOk ok s os →
    (mmSystem A).Reachable ok (os.foldl mmStep s)
  | [], _, h, _ => h
  | o :: os, s, h, hok => by
    have h' : (mmSystem A).Reachable ok (mmStep s o) := h.step hok.1 rfl
    exact mmFold_reachable os h' hok.2

theorem mmFresh_reachable {A : MmArea} {ok : MmState → MmOp → Prop}
    (h : (mmInit mmBlank A.base A.size A.granularity).2 = 0) :
    (mmSystem A).Reachable ok (mmFresh A) := by
  cases hm : mmInit mmBlank A.base A.size A.granularity with
  | mk mm r =>
    rw [hm] at h
    rw [mmFresh, hm]
    exact .init ⟨rfl, mmBlank, hm.trans (congrArg (Prod.mk mm) h)⟩

/-- Sixteen bytes at `0x1000`, in two blocks. -/
def mmArea16 : MmArea := ⟨0x1000, 16, 8, by decide, by decide, by decide⟩

/-- Thirty-two bytes at `0x1000`, in four blocks. -/
def mmArea32 : MmArea := ⟨0x1000, 32, 8, by decide, by decide, by decide⟩

end FlightOs
