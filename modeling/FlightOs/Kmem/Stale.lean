/-
# Pointers that are stale

`kfree` knows a pointer that has been freed already by the magic word of its header, which is
cleared when the chunk goes to the free list.  By the time of the second call the header may lie
inside of another chunk, or behind the break.  But no function sets that word anywhere else than in
the header of the block that it hands out, and the owners of blocks do not reach it until the memory
is theirs.

* `StaleHdr`: the header of such a pointer, and that each function leaves it one.
* `staleAfter`: which pointers are stale after a call.
* `kmem_stale`: they are rejected, in every state of a run whose sizes fit.
-/
import FlightOs.Kmem.Contract

namespace FlightOs

/-! ## 1. The header of a stale pointer -/

/-- The header before `p` is one that `kfree` rejects, and it has been the header of the block at
`p`. -/
structure StaleHdr (m : Nat → Kmem) (p : Nat) : Prop where
  range : kmemHeader ≤ p ∧ p < 2 ^ 32
  data : (m (p - kmemHeader)).data = p
  magic : (m (p - kmemHeader)).magic ≠ kmemMagic

section Header

variable {m : Nat → Kmem} {h h' : KmemHeap} {cfg : KmemConfig} {allow : Nat → Nat → Bool} {v : Kmem}
  {j k split len n p q ptr size : Nat}

/-- **A store to a header** that does not make it one of a live chunk. -/
theorem StaleHdr.update (S : StaleHdr m p) (hd : v.data = (m j).data ∨ v.data = wadd j kmemHeader)
    (hm : v.magic = (m j).magic ∨ v.magic = 0) : StaleHdr (Function.update m j v) p := by
  by_cases hj : p - kmemHeader = j
  · subst hj
    refine ⟨S.range, ?_, ?_⟩
    · rw [Function.update_self]
      rcases hd with hd | hd
      · exact hd.trans S.data
      · have hr := S.range
        rw [hd, wadd_of_lt (by omega)]
        omega
    · rw [Function.update_self]
      rcases hm with hm | hm
      · exact hm ▸ S.magic
      · rw [hm]
        decide
  · refine ⟨S.range, ?_, ?_⟩
    · rw [Function.update_of_ne hj]
      exact S.data
    · rw [Function.update_of_ne hj]
      exact S.magic

/-- **It is rejected.** -/
theorem StaleHdr.kfree_eq (S : StaleHdr h.hdr p) : kfree cfg h allow p = h := by
  have hk : wsub p kmemHeader = p - kmemHeader := wsub_of_le S.range.2 S.range.1
  simp only [kfree, hk, if_pos S.magic]
  split_ifs <;> rfl

theorem StaleHdr.ite {c : Prop} [Decidable c] (S : StaleHdr h.hdr p) (S' : StaleHdr h'.hdr p) :
    StaleHdr (if c then h else h').hdr p := by
  split_ifs
  · exact S
  · exact S'

theorem StaleHdr.kmemSplitAt (S : StaleHdr h.hdr p) :
    StaleHdr (kmemSplitAt h k split len).hdr p := by
  unfold FlightOs.kmemSplitAt
  extract_lets +lift _ h₁ _ h₂ _ h₃ _ h₄ h₅
  have S₁ : StaleHdr h₁.hdr p := S.update (Or.inl rfl) (Or.inr rfl)
  have S₂ : StaleHdr h₂.hdr p := S₁.update (Or.inl rfl) (Or.inl rfl)
  have S₃ : StaleHdr h₃.hdr p := .ite (S₂.update (Or.inl rfl) (Or.inl rfl)) S₂
  have S₄ : StaleHdr h₄.hdr p := S₃.update (Or.inl rfl) (Or.inl rfl)
  have S₅ : StaleHdr h₅.hdr p := .ite S₄ S₄
  exact S₅

theorem StaleHdr.kmemSplit (S : StaleHdr h.hdr p) : StaleHdr (kmemSplit h k size).hdr p := by
  unfold FlightOs.kmemSplit
  extract_lets +lift split _ h₁ len
  have S₁ : StaleHdr h₁.hdr p := S.update (Or.inr rfl) (Or.inl rfl)
  exact .ite S₁ S₁.kmemSplitAt

theorem StaleHdr.kmemMerge (S : StaleHdr h.hdr p) : StaleHdr (kmemMerge h k).hdr p := by
  unfold FlightOs.kmemMerge
  extract_lets +lift _ h₁ _ h₂
  have S₁ : StaleHdr h₁.hdr p := S.update (Or.inl rfl) (Or.inl rfl)
  have S₂ : StaleHdr h₂.hdr p := S₁.update (Or.inl rfl) (Or.inl rfl)
  exact .ite (S₂.update (Or.inl rfl) (Or.inl rfl)) S₂

/-! ## 2. Freeing -/

theorem StaleHdr.kmemLazyRelease (S : StaleHdr h.hdr p) :
    StaleHdr (kmemLazyRelease cfg h).hdr p := by
  unfold FlightOs.kmemLazyRelease
  exact .ite S (.ite S S.kmemSplit)

theorem StaleHdr.kmemDropLast (S : StaleHdr h.hdr p) : StaleHdr (kmemDropLast h).hdr p := by
  unfold FlightOs.kmemDropLast
  extract_lets +lift _ _ h₁ _ _ _ _
  have S₁ : StaleHdr h₁.hdr p := S.update (Or.inl rfl) (Or.inl rfl)
  exact S₁.update (Or.inl rfl) (Or.inr rfl)

theorem sbrk_hdr : (h.sbrk allow n).1.hdr = h.hdr := by
  unfold KmemHeap.sbrk
  split_ifs <;> rfl

theorem StaleHdr.kmemReleaseUnused (S : StaleHdr h.hdr p) :
    StaleHdr (kmemReleaseUnused cfg h allow).hdr p := by
  unfold FlightOs.kmemReleaseUnused
  refine .ite S ?_
  rw [sbrk_hdr]
  exact StaleHdr.kmemDropLast (.ite S.kmemLazyRelease S)

theorem StaleHdr.kfreeNext (S : StaleHdr h.hdr p) : StaleHdr (kfreeNext h k).hdr p := by
  unfold FlightOs.kfreeNext
  extract_lets +lift h₁ h₂ h₃
  have S₂ : StaleHdr h₂.hdr p := S
  exact .ite S₂.kmemMerge S

theorem StaleHdr.kfreePrev (S : StaleHdr h.hdr p) : StaleHdr (kfreePrev h k).1.hdr p := by
  unfold FlightOs.kfreePrev
  split_ifs
  · extract_lets +lift h₁ _ h₂ h₃ _ h₄
    have S₂ : StaleHdr h₂.hdr p := S.update (Or.inl rfl) (Or.inl rfl)
    have S₃ : StaleHdr h₃.hdr p := S₂
    exact S₃.kmemMerge
  · exact S

theorem StaleHdr.kfreeList (S : StaleHdr h.hdr p) : StaleHdr (kfreeList h k).hdr p := by
  unfold FlightOs.kfreeList
  extract_lets +lift h₁ h₂
  have S₂ : StaleHdr h₂.hdr p := .ite S S
  exact S₂

/-- From the mark on, a freed chunk is like any other. -/
theorem StaleHdr.marked
    (S : StaleHdr (h.set k { h.hdr k with free := kmemFreeMagic, magic := 0 }).hdr p) :
    StaleHdr (kfreeChunk cfg h allow k).hdr p := by
  have S₁ := (S.kfreeNext (k := k)).kfreePrev (k := k)
  unfold kfreeChunk
  exact .ite S₁.kfreeList.kmemReleaseUnused S₁.kfreeList

theorem StaleHdr.kfree (S : StaleHdr h.hdr p) : StaleHdr (kfree cfg h allow ptr).hdr p := by
  unfold FlightOs.kfree
  refine .ite S (.ite S (.ite S (.ite S (.ite S (.ite S (.ite S ?_))))))
  exact StaleHdr.marked (S.update (Or.inl rfl) (Or.inr rfl))

/-- **The pointer of a chunk that is freed** is stale from then on. -/
theorem StaleHdr.of_kfreeChunk (hk : k + kmemHeader < 2 ^ 32)
    (hdata : (h.hdr k).data = k + kmemHeader) :
    StaleHdr (kfreeChunk cfg h allow k).hdr (k + kmemHeader) := by
  refine StaleHdr.marked ⟨⟨Nat.le_add_left _ _, hk⟩, ?_, ?_⟩
  · simp only [Nat.add_sub_cancel, KmemHeap.set, Function.update_self]
    exact hdata
  · simp only [Nat.add_sub_cancel, KmemHeap.set, Function.update_self]
    decide

/-! ## 3. Allocation -/

/-- A block that is handed out elsewhere. -/
theorem StaleHdr.kmallocSuccess (S : StaleHdr h.hdr p) :
    (kmallocSuccess h k).2 = p ∨ StaleHdr (kmallocSuccess h k).1.hdr p := by
  by_cases hk : p - kmemHeader = k
  · left
    subst hk
    simp only [FlightOs.kmallocSuccess, KmemHeap.set, Function.update_self]
    exact S.data
  · right
    refine ⟨S.range, ?_, ?_⟩
    all_goals
      simp only [FlightOs.kmallocSuccess, KmemHeap.set, Function.update_of_ne hk]
    · exact S.data
    · exact S.magic

theorem StaleHdr.kmallocReuse (S : StaleHdr h.hdr p) :
    (kmallocReuse h k len).2 = p ∨ StaleHdr (kmallocReuse h k len).1.hdr p := by
  unfold FlightOs.kmallocReuse
  exact StaleHdr.kmallocSuccess (.ite (StaleHdr.kmemSplit (h := { h with availBytes := _ }) S) S)

theorem StaleHdr.kmallocExpand (S : StaleHdr h.hdr p) :
    (kmallocExpand h allow len).2 = p ∨ StaleHdr (kmallocExpand h allow len).1.hdr p := by
  have hhdr : (h.sbrk allow (wsub len (h.hdr h.last).size)).1.hdr = h.hdr := sbrk_hdr
  simp only [FlightOs.kmallocExpand]
  generalize h.sbrk allow (wsub len (h.hdr h.last).size) = r at hhdr ⊢
  have S₁ : StaleHdr r.1.hdr p := hhdr ▸ S
  split_ifs
  · exact Or.inr S₁
  · exact StaleHdr.kmallocSuccess (S₁.update (Or.inl rfl) (Or.inl rfl))

theorem StaleHdr.kmallocLink (S : StaleHdr h.hdr p) : StaleHdr (kmallocLink h k).hdr p := by
  unfold FlightOs.kmallocLink
  extract_lets +lift _ h₁ _ h₂ _ h₃ _ h₄
  have S₁ : StaleHdr h₁.hdr p := S.update (Or.inl rfl) (Or.inl rfl)
  have S₂ : StaleHdr h₂.hdr p := S₁.update (Or.inl rfl) (Or.inl rfl)
  have S₃ : StaleHdr h₃.hdr p := S₂.update (Or.inl rfl) (Or.inl rfl)
  have S₄ : StaleHdr h₄.hdr p := S₃.update (Or.inl rfl) (Or.inl rfl)
  exact S₄.update (Or.inr rfl) (Or.inl rfl)

theorem StaleHdr.kmallocFresh (S : StaleHdr h.hdr p) :
    (kmallocFresh h allow len).2 = p ∨ StaleHdr (kmallocFresh h allow len).1.hdr p := by
  have hhdr : (h.sbrk allow len).1.hdr = h.hdr := sbrk_hdr
  simp only [FlightOs.kmallocFresh]
  generalize h.sbrk allow len = r at hhdr ⊢
  have S₁ : StaleHdr r.1.hdr p := hhdr ▸ S
  split_ifs
  · exact Or.inr S₁
  · exact S₁.kmallocLink.kmallocSuccess

theorem kmemFindFreeChunk_hdr (heq : kmemFindFreeChunk h n = some (h', k)) : h'.hdr = h.hdr := by
  unfold kmemFindFreeChunk at heq
  split at heq
  · cases heq
    rfl
  · split at heq <;> cases heq <;> rfl

variable {r : KmemHeap × Nat}

theorem StaleHdr.kmalloc (S : StaleHdr h.hdr p) (heq : kmalloc h allow size = some r) :
    r.2 = p ∨ StaleHdr r.1.hdr p := by
  unfold FlightOs.kmalloc at heq
  split at heq
  · cases heq
    exact Or.inr S
  · simp only at heq
    split at heq
    · cases heq
    · next h₁ k₁ hfind =>
      have S₁ : StaleHdr h₁.hdr p := kmemFindFreeChunk_hdr hfind ▸ S
      split_ifs at heq
      · exact Option.some.inj heq ▸ S₁.kmallocReuse
      · exact Option.some.inj heq ▸ S₁.kmallocExpand
      · exact Option.some.inj heq ▸ S₁.kmallocFresh

theorem StaleHdr.kzalloc (S : StaleHdr h.hdr p) (heq : kzalloc h allow size = some r) :
    r.2 = p ∨ StaleHdr r.1.hdr p := by
  simp only [FlightOs.kzalloc, kcalloc] at heq
  split at heq
  · cases heq
  · next h₁ k₁ hk =>
    have S₁ := S.kmalloc hk
    split_ifs at heq
    · exact Option.some.inj heq ▸ S₁
    · exact Option.some.inj heq ▸ S₁

theorem StaleHdr.krealloc (S : StaleHdr h.hdr p) (heq : krealloc cfg h allow ptr size = some r) :
    r.2 = p ∨ StaleHdr r.1.hdr p := by
  unfold FlightOs.krealloc at heq
  split at heq
  · exact S.kmalloc heq
  · simp only at heq
    split_ifs at heq
    · exact Option.some.inj heq ▸ Or.inr S
    · exact Option.some.inj heq ▸ Or.inr S
    · exact Option.some.inj heq ▸ Or.inr S
    · split at heq
      · cases heq
      · next h₁ k₁ hk =>
        have S₁ := S.kmalloc hk
        split at heq
        · next hnew => exact Option.some.inj heq ▸ S₁.imp_left (fun e => hnew.symm.trans e)
        · exact Option.some.inj heq ▸ S₁.imp_right (fun S₁ => StaleHdr.kfree S₁)

end Header

/-! ## 4. Which pointers are stale -/

/-- The header before `p` is in the memory of the block `b`. -/
def CoversHeader (b : Nat × Nat) (p : Nat) : Prop := b.1 < p ∧ p < b.1 + b.2 + kmemHeader

instance (b : Nat × Nat) (p : Nat) : Decidable (CoversHeader b p) :=
  inferInstanceAs (Decidable (_ ∧ _))

/-- The pointers that are stale after a call: they have been blocks, and neither has a block been
handed out there again, nor one that has their header in it. -/
def staleAfter (s s' : KmemState) (stale : List Nat) : List Nat :=
  (stale ++ s.live.map Prod.fst).filter (fun p =>
    (∀ b ∈ s'.live, b.1 ≠ p) ∧ ∀ b ∈ s'.live, b ∉ s.live → ¬ CoversHeader b p)

/-- The heap, the blocks, and the pointers that are stale. -/
def staleSystem (cfg : KmemConfig) (A : (Nat → Nat → Bool) → Prop) :
    System (KmemState × List Nat) KmemOp where
  init g := (kmemSystem cfg A).init g.1 ∧ g.2 = []
  step g o g' := (kmemSystem cfg A).step g.1 o g'.1 ∧ g'.2 = staleAfter g.1 g'.1 g.2

/-- Calls in order, and stale pointers that are freed again. -/
def StaleOk (ok : KmemState → KmemOp → Prop) (g : KmemState × List Nat) (o : KmemOp) : Prop :=
  ok g.1 o ∨ ∃ p ∈ g.2, o = .kfree p

section Stale

variable {cfg : KmemConfig} {allow : Nat → Nat → Bool} {s s' : KmemState}
  {g g' : KmemState × List Nat} {stale : List Nat} {o : KmemOp} {p : Nat} {b : Nat × Nat}

theorem mem_staleAfter : p ∈ staleAfter s s' stale ↔ (p ∈ stale ∨ s.IsLive p) ∧ ¬ s'.IsLive p ∧
    ∀ b ∈ s'.live, b ∉ s.live → ¬ CoversHeader b p := by
  have hlive : s.IsLive p ↔ p ∈ s.live.map Prod.fst := by
    rw [List.mem_map]
    rfl
  have hnot : ¬ s'.IsLive p ↔ ∀ b ∈ s'.live, b.1 ≠ p := not_exists.trans (by simp only [not_and])
  rw [staleAfter, List.mem_filter, List.mem_append, hlive, hnot]
  simp only [Bool.decide_and, Bool.and_eq_true, decide_eq_true_eq]

/-- A new block at `p`, if there is one. -/
theorem isLive_addBlock {live : List (Nat × Nat)} {h : KmemHeap} {size : Nat} (hp : p ≠ 0) :
    (KmemState.mk h (addBlock live p size)).IsLive p := by
  rw [KmemState.IsLive, addBlock, if_neg hp]
  exact ⟨_, List.mem_cons_self, rfl⟩

/-- **A stale pointer stays stale**, unless the memory is handed out again. -/
theorem StaleHdr.call (S : StaleHdr s.heap.hdr p) (hout : ∀ b ∈ s.live, ¬ CoversHeader b p)
    (ho : KmemValid s o) (heq : kmemCall cfg allow s o = some s') (hnot : ¬ s'.IsLive p) :
    StaleHdr s'.heap.hdr p := by
  have hp : p ≠ 0 := by
    have := S.range.1
    unfold kmemHeader at this
    omega
  cases o with
  | kmalloc size =>
    obtain ⟨r, hr, rfl⟩ := Option.map_eq_some_iff.mp heq
    refine (S.kmalloc hr).resolve_left (fun e => hnot ?_)
    rw [e]
    exact isLive_addBlock hp
  | kzalloc size =>
    obtain ⟨r, hr, rfl⟩ := Option.map_eq_some_iff.mp heq
    refine (S.kzalloc hr).resolve_left (fun e => hnot ?_)
    rw [e]
    exact isLive_addBlock hp
  | krealloc ptr size =>
    obtain ⟨r, hr, rfl⟩ := Option.map_eq_some_iff.mp heq
    refine (S.krealloc hr).resolve_left (fun e => hnot ?_)
    rw [e, if_neg hp]
    exact isLive_addBlock hp
  | kfree ptr =>
    obtain rfl := Option.some.inj heq
    exact S.kfree
  | release =>
    obtain rfl := Option.some.inj heq
    exact S.kmemReleaseUnused
  | write h =>
    obtain rfl := Option.some.inj heq
    have hw : s.Writes h := ho
    have hkeep : h.hdr (p - kmemHeader) = s.heap.hdr (p - kmemHeader) := by
      refine (hw.headers _ (fun x h1 h2 => ?_)).1
      rintro ⟨b, hb, h3, h4⟩
      have := S.range
      exact hout b hb ⟨by omega, by omega⟩
    exact ⟨S.range, hkeep ▸ S.data, hkeep ▸ S.magic⟩

/-- The headers of the blocks are in no block. -/
theorem KmemRun.uncovered {gap : Prop} (h : KmemRun gap s) (hp : s.IsLive p) (hb : b ∈ s.live)
    (hne : b.1 ≠ p) : ¬ CoversHeader b p := by
  obtain ⟨cs, fl, I, hown⟩ := h
  obtain ⟨a, t, rfl, hc⟩ := hown.of_isLive hp
  obtain ⟨c, hmem, hbc, hle⟩ := hown.chunk hb
  have hcne : c ≠ ⟨a, t, .live⟩ := by
    rintro rfl
    exact hne hbc
  have hap : c.addr + 32 + c.size ≤ a ∨ a + 32 + t ≤ c.addr :=
    I.apart (d := ⟨a, t, .live⟩) (mem_liveOf.mp hmem).1 (mem_liveOf.mp hc).1 hcne
  rintro ⟨h1, h2⟩
  unfold kmemHeader at h2
  omega

/-- The pointer of a live chunk, after `kfree`. -/
theorem HeapInv.stale_kfree {gap : Prop} {h : KmemHeap} {pre post : List Chunk} {fl : List Nat}
    {a t : Nat} (I : HeapInv gap h (pre ++ ⟨a, t, .live⟩ :: post) fl) :
    StaleHdr (kfree cfg h allow (a + 32)).hdr (a + 32) := by
  have hrange : 0 < a ∧ a + 32 + t < 2 ^ 29 := I.range (c := ⟨a, t, .live⟩) (by simp)
  have hdata : (h.hdr a).data = a + 32 := by
    rw [I.header_eq]
    rfl
  rw [I.kfree_eq]
  refine StaleHdr.of_kfreeChunk ?_ hdata
  unfold kmemHeader
  omega

/-- The pointer of a live chunk, after a `krealloc` that has not failed. -/
theorem HeapInv.stale_krealloc {gap : Prop} {h : KmemHeap} {cs : List Chunk} {fl : List Nat}
    {a t size : Nat} {r : KmemHeap × Nat} (I : HeapInv gap h cs fl) (hb : Bounded allow)
    (hfits : SizeFits h size) (hc : ⟨a, t, .live⟩ ∈ liveOf cs)
    (heq : FlightOs.krealloc cfg h allow (a + 32) size = some r) (hr : r.2 ≠ 0) :
    StaleHdr r.1.hdr (a + 32) := by
  rw [I.krealloc_eq hc] at heq
  rcases Nat.eq_zero_or_pos size with rfl | hpos
  · rw [kmalloc_zero] at heq
    obtain rfl := Option.some.inj heq
    exact absurd rfl hr
  · rcases I.kmalloc hb hpos hfits with hfail | ⟨h₁, k, hk, cs₁, fl₁, n, I₁, hperm, -⟩
    · rw [hfail] at heq
      obtain rfl := Option.some.inj heq
      exact absurd rfl hr
    · rw [hk] at heq
      simp only [if_neg (show ¬ k + 32 = 0 by omega)] at heq
      obtain rfl := Option.some.inj heq
      obtain ⟨pre, post, hcs₁⟩ := split_live (hperm.mem_iff.mpr (List.mem_cons_of_mem _ hc))
      have I₂ := I₁.withBytes (kreallocCopy h₁.bytes (k + 32) (a + 32)
        (if size < (h₁.hdr a).size then size else (h₁.hdr a).size))
      rw [hcs₁] at I₂
      exact I₂.stale_kfree

/-- **The pointer of a block that is given back** is stale. -/
theorem KmemRun.stale_of_call (h : KmemRun True s) (hallow : Bounded allow) (ho : KmemOk s o)
    (heq : kmemCall cfg allow s o = some s') (hp : s.IsLive p) (hnot : ¬ s'.IsLive p) :
    StaleHdr s'.heap.hdr p := by
  obtain ⟨cs, fl, I, hown⟩ := h
  obtain ⟨a, t, rfl, hc⟩ := hown.of_isLive hp
  obtain ⟨e, he, hea⟩ := hp
  have hadd : ∀ {live : List (Nat × Nat)} {ptr size : Nat}, e ∈ live →
      e ∈ addBlock live ptr size := by
    intro live ptr size hmem
    rw [addBlock]
    split
    · exact hmem
    · exact List.mem_cons_of_mem _ hmem
  cases o with
  | kmalloc size =>
    obtain ⟨r, -, rfl⟩ := Option.map_eq_some_iff.mp heq
    exact absurd ⟨e, hadd he, hea⟩ hnot
  | kzalloc size =>
    obtain ⟨r, -, rfl⟩ := Option.map_eq_some_iff.mp heq
    exact absurd ⟨e, hadd he, hea⟩ hnot
  | krealloc ptr size =>
    obtain ⟨r, hr, rfl⟩ := Option.map_eq_some_iff.mp heq
    by_cases hnew : r.2 = 0
    · exact absurd ⟨e, by rw [if_pos hnew]; exact he, hea⟩ hnot
    · have hptr : ptr = a + 32 := by
        by_contra hne
        refine hnot ⟨e, ?_, hea⟩
        rw [if_neg hnew]
        exact hadd (mem_dropBlock.mpr ⟨he, fun h => hne (h.symm.trans hea)⟩)
      exact I.stale_krealloc hallow ho.2 hc (hptr ▸ hr) hnew
  | kfree ptr =>
    obtain rfl := Option.some.inj heq
    have hptr : ptr = a + 32 := by
      by_contra hne
      exact hnot ⟨e, mem_dropBlock.mpr ⟨he, fun h => hne (h.symm.trans hea)⟩, hea⟩
    obtain ⟨pre, post, rfl⟩ := split_live hc
    subst hptr
    exact I.stale_kfree
  | release =>
    obtain rfl := Option.some.inj heq
    exact absurd ⟨e, he, hea⟩ hnot
  | write h =>
    obtain rfl := Option.some.inj heq
    exact absurd ⟨e, he, hea⟩ hnot

/-! ## 5. Runs -/

/-- What holds all along: a stale header is rejected, and no owner reaches it. -/
structure StaleRun (g : KmemState × List Nat) : Prop where
  run : KmemRun True g.1
  hdr : ∀ p ∈ g.2, StaleHdr g.1.heap.hdr p
  out : ∀ p ∈ g.2, ∀ b ∈ g.1.live, ¬ CoversHeader b p

/-- The header of a block is not one of these. -/
theorem KmemRun.not_isLive {gap : Prop} (h : KmemRun gap s) (S : StaleHdr s.heap.hdr p) :
    ¬ s.IsLive p := by
  intro hp
  obtain ⟨cs, fl, I, hown⟩ := h
  obtain ⟨a, t, rfl, hc⟩ := hown.of_isLive hp
  obtain ⟨pre, post, rfl⟩ := split_live hc
  have hmagic : (s.heap.hdr a).magic = kmemMagic := by
    rw [I.header_eq]
    rfl
  exact S.magic hmagic

/-- **The step.** -/
theorem StaleRun.step (R : StaleRun g) (hallow : Bounded allow) (ho : StaleOk KmemOk g o)
    (heq : kmemCall cfg allow g.1 o = some g'.1) (hstale : g'.2 = staleAfter g.1 g'.1 g.2) :
    StaleRun g' := by
  rcases ho with hok | ⟨q, hq, rfl⟩
  · obtain ⟨s', hs', hrun⟩ := R.run.call cfg hallow (Or.inl trivial) hok
    obtain rfl : g'.1 = s' := Option.some.inj (heq.symm.trans hs')
    refine ⟨hrun, fun p hp => ?_, fun p hp b hb => ?_⟩
    · rw [hstale, mem_staleAfter] at hp
      obtain ⟨hold | hlive, hnot, -⟩ := hp
      · exact (R.hdr p hold).call (R.out p hold) hok.1 heq hnot
      · exact R.run.stale_of_call hallow hok heq hlive hnot
    · rw [hstale, mem_staleAfter] at hp
      obtain ⟨hold, hnot, hnew⟩ := hp
      by_cases hb' : b ∈ g.1.live
      · rcases hold with hold | hlive
        · exact R.out p hold b hb'
        · exact R.run.uncovered hlive hb' (fun e => hnot ⟨b, hb, e⟩)
      · exact hnew b hb hb'
  · -- nothing happens
    have hsame : g'.1 = g.1 := by
      refine (Option.some.inj heq).symm.trans ?_
      have hdrop : dropBlock g.1.live q = g.1.live :=
        dropBlock_of_forall (fun e he h => R.run.not_isLive (R.hdr q hq) ⟨e, he, h⟩)
      rw [(R.hdr q hq).kfree_eq, hdrop]
    have hold : ∀ p ∈ g'.2, p ∈ g.2 := by
      intro p hp
      rw [hstale, mem_staleAfter, hsame] at hp
      exact hp.1.resolve_right hp.2.1
    refine ⟨hsame ▸ R.run, fun p hp => ?_, fun p hp => ?_⟩
    · rw [hsame]
      exact R.hdr p (hold p hp)
    · rw [hsame]
      exact R.out p (hold p hp)

theorem StaleRun.of_reachable (h : (staleSystem cfg Bounded).Reachable (StaleOk KmemOk) g) :
    StaleRun g := by
  refine h.invariant (fun g hg => ?_) (fun g o g' R ho hstep => ?_)
  · obtain ⟨hinit, hnil⟩ := hg
    refine ⟨KmemRun.init (fun _ hA => hA) hinit, ?_, ?_⟩
    all_goals
      rw [hnil]
      exact fun p hp => absurd hp List.not_mem_nil
  · obtain ⟨⟨allow, hallow, heq⟩, hstale⟩ := hstep
    exact R.step hallow ho heq hstale

end Stale

/-! ## 6. Freeing them again -/

/-- **A stale pointer is rejected**: whatever has become of its chunk, the heap stays as it is. -/
theorem kmem_stale (cfg : KmemConfig) {g : KmemState × List Nat}
    (h : (staleSystem cfg Bounded).Reachable (StaleOk KmemOk) g) :
    ∀ p ∈ g.2, ∀ allow, kfree cfg g.1.heap allow p = g.1.heap :=
  fun p hp _ => ((StaleRun.of_reachable h).hdr p hp).kfree_eq

/-- A call, and what is stale after it. -/
def staleCall (cfg : KmemConfig) (allow : Nat → Nat → Bool) (g : KmemState × List Nat)
    (o : KmemOp) : Option (KmemState × List Nat) :=
  (kmemCall cfg allow g.1 o).map (fun s' => (s', staleAfter g.1 s' g.2))

theorem staleCall_step {cfg : KmemConfig} {A : (Nat → Nat → Bool) → Prop}
    {allow : Nat → Nat → Bool} (hA : A allow) (g : KmemState × List Nat) (o : KmemOp)
    (g' : KmemState × List Nat) (heq : staleCall cfg allow g o = some g') :
    (staleSystem cfg A).step g o g' := by
  obtain ⟨s', hs', rfl⟩ := Option.map_eq_some_iff.mp heq
  exact ⟨⟨allow, hA, hs'⟩, rfl⟩

theorem staleStart_init (cfg : KmemConfig) {allow : Nat → Nat → Bool} (hA : Bounded allow)
    (hk : (kmemInit kmemBlank allow).2 = vmallocStart) :
    (staleSystem cfg Bounded).init (kmemStart allow, []) :=
  ⟨⟨rfl, kmemBlank, allow, vmallocStart, ⟨rfl, rfl, by decide⟩, hA, by decide, Prod.ext rfl hk⟩,
    rfl⟩

/-- The first of two blocks, freed twice. -/
theorem kmem_stale_twoBlocks : ∃ g, System.stepAll (staleCall kmemReleasing sbrkWithin)
      (kmemStart sbrkWithin, []) [.kmalloc 8, .kmalloc 8, .kfree 0x1000040] = some g ∧
    0x1000040 ∈ g.2 ∧ ∀ allow, kfree kmemReleasing g.1.heap allow 0x1000040 = g.1.heap := by
  have hrun : (System.stepAll (staleCall kmemReleasing sbrkWithin) (kmemStart sbrkWithin, [])
      [.kmalloc 8, .kmalloc 8, .kfree 0x1000040]).map Prod.snd = some [0x1000040] := by
    decide
  obtain ⟨g, hg, hstale⟩ := Option.map_eq_some_iff.mp hrun
  have hlive : (System.stepAll (staleCall kmemReleasing sbrkWithin) (kmemStart sbrkWithin, [])
      [.kmalloc 8, .kmalloc 8]).map (fun g => g.1.live) =
      some [(0x1000068, 8), (0x1000040, 8)] := by
    decide
  have hok : ∀ g, StaleOk KmemOk g (.kmalloc 8) := fun _ =>
    Or.inl ⟨trivial, sizeFits_of_le (by decide)⟩
  have hfree : ∀ g, g.1.live = [(0x1000068, 8), (0x1000040, 8)] →
      StaleOk KmemOk g (.kfree 0x1000040) := by
    intro g hg
    refine Or.inl ⟨Or.inr ⟨(0x1000040, 8), ?_, rfl⟩, trivial⟩
    rw [hg]
    decide
  have hallowed : System.AllowedAll (staleCall kmemReleasing sbrkWithin) (StaleOk KmemOk)
      (kmemStart sbrkWithin, []) [.kmalloc 8, .kmalloc 8, .kfree 0x1000040] := by
    refine ⟨hok _, fun g₁ h₁ => ⟨hok _, fun g₂ h₂ => ⟨hfree _ ?_, fun _ _ => trivial⟩⟩⟩
    rw [System.stepAll, h₁, Option.bind_some, System.stepAll, h₂] at hlive
    exact Option.some.inj hlive
  have hmem : 0x1000040 ∈ g.2 := hstale.symm ▸ List.mem_cons_self
  have hreach := System.Reachable.stepAll_of (staleCall_step sbrkWithin_bounded) _
    (.init (staleStart_init kmemReleasing sbrkWithin_bounded (by decide))) hallowed hg
  exact ⟨g, hg, hmem, kmem_stale kmemReleasing hreach _ hmem⟩

/-- What the owner of the block in front makes of the header at `k`. -/
def kmemScribble (h : KmemHeap) (k : Nat) : KmemHeap :=
  { h with hdr := Function.update h.hdr k { h.hdr k with magic := kmemMagic } }

/-- A chunk of 32 bytes is served for a size of `0xFFFFFFFF`, and the next header lies in the block:
after the second one has been freed, the owner of the first one writes to what is his. -/
theorem kmem_stale_scribbled : ¬ ∀ g,
    (staleSystem kmemKeeping Bounded).Reachable (StaleOk KmemValid) g →
      ∀ p ∈ g.2, ∀ allow, kfree kmemKeeping g.1.heap allow p = g.1.heap := by
  intro hall
  have hrun : (System.stepAll (staleCall kmemKeeping sbrkWithin) (kmemStart sbrkWithin, [])
      [.kmalloc 0xFFFFFFFF, .kmalloc 8, .kmalloc 8, .kfree 0x1000060]).map (fun g =>
        (g.1.live, g.2, (kmemScribble g.1.heap 0x1000040).availBytes,
          (kfree kmemKeeping (kmemScribble g.1.heap 0x1000040) sbrkWithin 0x1000060).availBytes)) =
      some ([(0x1000088, 8), (0x1000040, 0xFFFFFFFF)], [0x1000060], 8, 16) := by
    decide
  obtain ⟨g, hg, hobs⟩ := Option.map_eq_some_iff.mp hrun
  simp only [Prod.mk.injEq] at hobs
  obtain ⟨hlive, hstale, havail, hfreed⟩ := hobs
  have hbefore : (System.stepAll (staleCall kmemKeeping sbrkWithin) (kmemStart sbrkWithin, [])
      [.kmalloc 0xFFFFFFFF, .kmalloc 8, .kmalloc 8]).map (fun g => g.1.live) =
      some [(0x1000088, 8), (0x1000060, 8), (0x1000040, 0xFFFFFFFF)] := by
    decide
  have hok : ∀ g size, StaleOk KmemValid g (.kmalloc size) := fun _ _ => Or.inl trivial
  have hallowed : System.AllowedAll (staleCall kmemKeeping sbrkWithin) (StaleOk KmemValid)
      (kmemStart sbrkWithin, [])
      [.kmalloc 0xFFFFFFFF, .kmalloc 8, .kmalloc 8, .kfree 0x1000060] := by
    refine ⟨hok _ _, fun g₁ h₁ => ⟨hok _ _, fun g₂ h₂ => ⟨hok _ _, fun g₃ h₃ =>
      ⟨Or.inl (Or.inr ⟨(0x1000060, 8), ?_, rfl⟩), fun _ _ => trivial⟩⟩⟩⟩
    rw [System.stepAll, h₁, Option.bind_some, System.stepAll, h₂, Option.bind_some, System.stepAll,
      h₃] at hbefore
    have hlive₃ : g₃.1.live = [(0x1000088, 8), (0x1000060, 8), (0x1000040, 0xFFFFFFFF)] :=
      Option.some.inj hbefore
    rw [hlive₃]
    decide
  have hreach := System.Reachable.stepAll_of (staleCall_step sbrkWithin_bounded) _
    (.init (staleStart_init kmemKeeping sbrkWithin_bounded (by decide))) hallowed hg
  have hwrite : KmemValid g.1 (.write (kmemScribble g.1.heap 0x1000040)) := by
    refine ⟨fun _ _ => rfl, fun k hk => ⟨Function.update_of_ne ?_ _ _, rfl⟩, rfl⟩
    rintro rfl
    refine hk 0x1000040 le_rfl (by decide) ⟨(0x1000040, 0xFFFFFFFF), ?_, by decide⟩
    rw [hlive]
    decide
  have hstep : (staleSystem kmemKeeping Bounded).step g (.write (kmemScribble g.1.heap 0x1000040))
      (⟨kmemScribble g.1.heap 0x1000040, g.1.live⟩, staleAfter g.1 ⟨_, g.1.live⟩ g.2) :=
    ⟨⟨sbrkWithin, sbrkWithin_bounded, rfl⟩, rfl⟩
  have hmem : 0x1000060 ∈ staleAfter g.1 ⟨kmemScribble g.1.heap 0x1000040, g.1.live⟩ g.2 := by
    refine mem_staleAfter.mpr ⟨Or.inl ?_, ?_, fun b hb hnew => absurd hb hnew⟩
    · rw [hstale]
      exact List.mem_cons_self
    · rw [KmemState.IsLive, hlive]
      decide
  have hkept := hall _ (hreach.step (Or.inl hwrite) hstep) _ hmem sbrkWithin
  rw [hkept, havail] at hfreed
  exact absurd hfreed (by decide)

end FlightOs
