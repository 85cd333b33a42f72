/-
# What `krealloc` promises

The documentation of `krealloc`: the block that it returns has the contents of the old one as far
as they fit; on an error the old one is left as it was; and "if size is 0 the call is equal to
`kfree(ptr)`".  `krealloc_iff` says exactly when that is so.

The last part fails: `kmalloc(0)` returns `NULL`, which `krealloc` takes for an error, and it
leaves the old block alone.  The first one needs a size that fits, unless the call fails anyway.
-/
import FlightOs.Kmem.Contract

namespace FlightOs

/-! ## 1. The break -/

/-- The break is never moved out of its range. -/
def SbrkStays (allow : Nat → Nat → Bool) : Prop :=
  ∀ brk n, brk ≤ vmallocEnd → allow brk n = true → wadd brk (walign n 8) ≤ vmallocEnd

theorem SbrkStays.bounded {allow : Nat → Nat → Bool} (h : SbrkStays allow) : Bounded allow := by
  intro brk n hbrk hn hok
  have hle := h brk n hbrk hok
  have hal := (walign_spec (x := n) (a := 8) (by omega) (by omega)).2.2
  unfold vmallocEnd at hbrk
  rwa [wadd_of_lt (by omega)] at hle

section Break

variable {h h' : KmemHeap} {allow : Nat → Nat → Bool} {cfg : KmemConfig} {k n p size : Nat}

theorem sbrk_brk (hA : SbrkStays allow) (hbrk : h.brk ≤ vmallocEnd) :
    (h.sbrk allow n).1.brk ≤ vmallocEnd := by
  unfold KmemHeap.sbrk
  split
  · exact hbrk
  · split
    next hok => exact hA _ _ hbrk hok
    next => exact hbrk

@[simp] theorem kmemSplit_brk : (kmemSplit h k n).brk = h.brk := by
  simp only [kmemSplit, kmemSplitAt]
  split_ifs <;> rfl

@[simp] theorem kmallocSuccess_brk : (kmallocSuccess h k).1.brk = h.brk := rfl

@[simp] theorem kmallocLink_brk : (kmallocLink h k).brk = h.brk := rfl

@[simp] theorem kmemMerge_brk : (kmemMerge h k).brk = h.brk := by
  simp only [kmemMerge]
  split_ifs <;> rfl

theorem kmemFindFreeChunk_brk (heq : kmemFindFreeChunk h n = some (h', k)) : h'.brk = h.brk := by
  unfold kmemFindFreeChunk at heq
  split at heq
  · cases heq
    rfl
  · split at heq <;> cases heq <;> rfl

theorem kmallocReuse_brk : (kmallocReuse h k n).1.brk = h.brk := by
  simp only [kmallocReuse]
  split
  · exact kmemSplit_brk
  · rfl

theorem kmallocExpand_brk (hA : SbrkStays allow) (hbrk : h.brk ≤ vmallocEnd) :
    (kmallocExpand h allow n).1.brk ≤ vmallocEnd := by
  have hs := sbrk_brk (n := wsub n (h.hdr h.last).size) hA hbrk
  simp only [kmallocExpand]
  split <;> exact hs

theorem kmallocFresh_brk (hA : SbrkStays allow) (hbrk : h.brk ≤ vmallocEnd) :
    (kmallocFresh h allow n).1.brk ≤ vmallocEnd := by
  have hs := sbrk_brk (n := n) hA hbrk
  simp only [kmallocFresh]
  split <;> exact hs

theorem kmalloc_brk (hA : SbrkStays allow) (hbrk : h.brk ≤ vmallocEnd)
    (heq : kmalloc h allow size = some (h', p)) : h'.brk ≤ vmallocEnd := by
  unfold kmalloc at heq
  split at heq
  · obtain rfl : h = h' := congrArg Prod.fst (Option.some.inj heq)
    exact hbrk
  · simp only at heq
    split at heq
    · cases heq
    next h₁ k hfind =>
      have h₁brk : h₁.brk ≤ vmallocEnd := kmemFindFreeChunk_brk hfind ▸ hbrk
      generalize wordAlign (wadd size kmemHeader) = len at heq
      split at heq
      · obtain rfl : (kmallocReuse h₁ k len).1 = h' := congrArg Prod.fst (Option.some.inj heq)
        rw [kmallocReuse_brk]
        exact h₁brk
      · split at heq
        · obtain rfl : (kmallocExpand h₁ allow len).1 = h' := congrArg Prod.fst (Option.some.inj heq)
          exact kmallocExpand_brk hA h₁brk
        · obtain rfl : (kmallocFresh h₁ allow len).1 = h' := congrArg Prod.fst (Option.some.inj heq)
          exact kmallocFresh_brk hA h₁brk

theorem kmemReleaseUnused_brk (hA : SbrkStays allow) (hbrk : h.brk ≤ vmallocEnd) :
    (kmemReleaseUnused cfg h allow).brk ≤ vmallocEnd := by
  have hlazy : (kmemLazyRelease cfg h).brk = h.brk := by
    simp only [kmemLazyRelease]
    split_ifs
    · rfl
    · rfl
    · exact kmemSplit_brk
  unfold kmemReleaseUnused
  split
  · exact hbrk
  · refine sbrk_brk hA ?_
    show (if cfg.releaseUnusedLazy = true then kmemLazyRelease cfg h else h).brk ≤ vmallocEnd
    split
    · exact hlazy ▸ hbrk
    · exact hbrk

theorem kfree_brk (hA : SbrkStays allow) (hbrk : h.brk ≤ vmallocEnd) :
    (kfree cfg h allow p).brk ≤ vmallocEnd := by
  have hnext : ∀ (h : KmemHeap) k, (kfreeNext h k).brk = h.brk := by
    intro h k
    simp only [kfreeNext]
    split
    · exact kmemMerge_brk
    · rfl
  have hprev : ∀ (h : KmemHeap) k, (kfreePrev h k).1.brk = h.brk := by
    intro h k
    simp only [kfreePrev]
    split
    · exact kmemMerge_brk
    · rfl
  have hlist : ∀ (h : KmemHeap) k, (kfreeList h k).brk = h.brk := by
    intro h k
    simp only [kfreeList]
    split <;> rfl
  have hchunk : ∀ k, (kfreeChunk cfg h allow k).brk ≤ vmallocEnd := by
    intro k
    let h₁ := kfreeNext (h.set k { h.hdr k with free := kmemFreeMagic, magic := 0 }) k
    let h₂ := kfreeList (kfreePrev h₁ k).1 (kfreePrev h₁ k).2
    have h₂brk : h₂.brk ≤ vmallocEnd := by
      rw [hlist, hprev, hnext]
      exact hbrk
    have heq : kfreeChunk cfg h allow k =
        if cfg.releaseUnused ∧ ¬ cfg.releaseBackground then kmemReleaseUnused cfg h₂ allow else h₂ :=
      rfl
    rw [heq]
    split
    · exact kmemReleaseUnused_brk hA h₂brk
    · exact h₂brk
  simp only [kfree]
  split_ifs
  all_goals first
    | exact hbrk
    | exact hchunk _

end Break

/-! ## 2. When `kmalloc` fails -/

/-- What `kernel_sbrk` is asked for when no free chunk is large enough. -/
def kmallocIncrement (h : KmemHeap) (len : Nat) : Nat :=
  if (h.hdr h.last).free = kmemFreeMagic then wsub len (h.hdr h.last).size else len

/-- There is no chunk for the size, and `kernel_sbrk` refuses to make room for one. -/
structure KmallocRefused (h : KmemHeap) (allow : Nat → Nat → Bool) (size : Nat) : Prop where
  small : ∀ fl, Ring h.links h.init fl → ∀ k ∈ fl,
    (h.hdr k).size < wordAlign (wadd size kmemHeader)
  ne_zero : kmallocIncrement h (wordAlign (wadd size kmemHeader)) ≠ 0
  refused : allow h.brk (kmallocIncrement h (wordAlign (wadd size kmemHeader))) ≠ true

section Resize

variable {gap : Prop} {s : KmemState} {h : KmemHeap} {cs : List Chunk} {fl ks : List Nat}
  {allow : Nat → Nat → Bool} {cfg : KmemConfig} {c : Chunk} {size n p ptr : Nat}

theorem sbrk_eq (hn : n ≠ 0) (hok : allow h.brk n = true) :
    h.sbrk allow n = ({ h with brk := wadd h.brk (walign n 8) }, h.brk) := by
  rw [KmemHeap.sbrk, if_neg hn, if_pos hok]

/-- **`kmalloc` of any size**, even one that wraps, fails only if it is refused. -/
theorem HeapInv.kmalloc_total (I : HeapInv gap h cs fl) (allow : Nat → Nat → Bool) (hpos : 0 < size) :
    (KmallocRefused h allow size ∧ FlightOs.kmalloc h allow size = some ({ h with allocFail := 1 }, 0)) ∨
    (¬ KmallocRefused h allow size ∧ ∃ h' p, p ≠ 0 ∧ FlightOs.kmalloc h allow size = some (h', p)) := by
  have hbrk := I.brk.2
  have hlow := I.low
  have hinit := (I.bounds I.init_mem).2
  simp only at hinit
  unfold vmallocEnd at hbrk
  unfold vmallocStart at hlow
  have herr : h.brk ≠ sbrkError := by
    unfold sbrkError
    omega
  obtain ⟨pre, c, hcs, hlast, -⟩ := I.last_chunk
  have hc : c ∈ cs := by simp [hcs]
  have hdvd : 8 ∣ wordAlign (wadd size kmemHeader) := Nat.dvd_mul_left 8 _
  by_cases hr : KmallocRefused h allow size
  · refine Or.inl ⟨hr, ?_⟩
    obtain ⟨hfind, -⟩ := (I.findFreeChunk (wordAlign (wadd size kmemHeader))).resolve_right
      (fun ⟨a, ha, _, hfit, _⟩ => absurd (hr.small fl I.ring a ha) (not_lt.mpr hfit))
    have hinc := hr.ne_zero
    have hno := hr.refused
    rw [FlightOs.kmalloc, if_neg hpos.ne']
    simp only [hfind]
    rw [if_neg (by simp)]
    unfold kmallocIncrement at hinc hno
    split
    next hfree =>
      rw [if_pos hfree] at hinc hno
      simp only [kmallocExpand, sbrk_refused hinc hno, if_true]
    next hfree =>
      rw [if_neg hfree] at hinc hno
      simp only [kmallocFresh, sbrk_refused hinc hno, if_true]
  · refine Or.inr ⟨hr, ?_⟩
    rw [FlightOs.kmalloc, if_neg hpos.ne']
    generalize hlen : wordAlign (wadd size kmemHeader) = len at *
    rcases I.findFreeChunk len with ⟨hfind, hsmall⟩ | ⟨a, ha, ha0, hfit, hfind⟩
    · have hsmall' : ∀ fl', Ring h.links h.init fl' → ∀ k ∈ fl', (h.hdr k).size < len :=
        fun fl' hring k hk => hsmall k (I.ring.unique hring ▸ hk)
      simp only [hfind]
      rw [if_neg (by simp)]
      split
      next hfree =>
        have hmem : h.last ∈ fl := by
          rw [hlast] at hfree ⊢
          exact (I.listed _).mpr ⟨c, hc, rfl, (I.free_iff hc).mp hfree⟩
        have hlt := hsmall _ hmem
        have hle : (h.hdr h.last).size < 2 ^ 29 := by
          rw [hlast, I.size_eq hc]
          have := (I.range hc).2
          omega
        have hlt32 : len < 2 ^ 32 := by
          have := wadd_lt (wadd size kmemHeader) (8 - 1)
          rw [← hlen, wordAlign, walign]
          omega
        have hinc : wsub len (h.hdr h.last).size ≠ 0 := by
          rw [wsub_of_le hlt32 hlt.le]
          omega
        have hdata : (h.hdr h.last).data ≠ 0 := by
          have hnr : c.use ≠ .root := by
            rw [hlast] at hfree
            rw [(I.free_iff hc).mp hfree]
            decide
          obtain ⟨q, r, heq⟩ := I.record hc
          rw [hlast, heq]
          simp [Chunk.header, hnr]
        have hok : allow h.brk (wsub len (h.hdr h.last).size) = true := by
          by_contra hno
          refine hr ⟨hlen ▸ hsmall', ?_, ?_⟩ <;> rw [hlen, kmallocIncrement, if_pos hfree]
          · exact hinc
          · exact hno
        have hptr : (kmallocExpand h allow len).2 = (h.hdr h.last).data := by
          simp only [kmallocExpand, sbrk_eq hinc hok, if_neg herr, kmallocSuccess, KmemHeap.set,
            Function.update_self]
        exact ⟨_, _, hptr ▸ hdata, rfl⟩
      next hfree =>
        have hsbrk : (h.sbrk allow len).2 = h.brk := by
          by_cases h0 : len = 0
          · rw [h0]
            rfl
          · have hok : allow h.brk len = true := by
              by_contra hno
              refine hr ⟨hlen ▸ hsmall', ?_, ?_⟩ <;> rw [hlen, kmallocIncrement, if_neg hfree]
              · exact h0
              · exact hno
            rw [sbrk_eq h0 hok]
        have hptr : (kmallocFresh h allow len).2 = wadd h.brk kmemHeader := by
          simp only [kmallocFresh, hsbrk, if_neg herr, kmallocSuccess, kmallocLink, KmemHeap.set,
            Function.update_self]
        have hne : wadd h.brk kmemHeader ≠ 0 := by
          rw [kmemHeader, wadd_of_lt (by omega)]
          omega
        exact ⟨_, _, hptr ▸ hne, rfl⟩
    · obtain ⟨pre, post, hcs'⟩ := I.split_at_free ha
      generalize (h.hdr a).size = t at hfit hcs'
      subst hcs'
      obtain ⟨h', hre, -⟩ := I.reuse hdvd hfit le_rfl
      refine ⟨h', a + 32, by omega, ?_⟩
      simp only [hfind, if_pos ha0, hre]

/-! ## 3. `krealloc` -/

/-- The size of the chunk that holds the block at `ptr`. -/
def kmemBlockSize (h : KmemHeap) (ptr : Nat) : Nat := (h.hdr (ptr - kmemHeader)).size

/-- What the documentation says of a call on a live block. -/
def KreallocMeets (cfg : KmemConfig) (allow : Nat → Nat → Bool) (s : KmemState) (ptr size : Nat) :
    Prop :=
  ∃ h p, krealloc cfg s.heap allow ptr size = some (h, p) ∧
    -- with no size, a call of `kfree`
    (size = 0 → h = kfree cfg s.heap allow ptr) ∧
    -- an error: nothing has changed but the count of errors
    (size ≠ 0 → p = 0 → h = { s.heap with allocFail := h.allocFail }) ∧
    -- a new block in the place of the old one, with its contents, and the others as they were
    (size ≠ 0 → p ≠ 0 → KmemSound True ⟨h, addBlock (dropBlock s.live ptr) p size⟩ ∧
      (∀ i < min (kmemBlockSize s.heap ptr) size, h.bytes (p + i) = s.heap.bytes (ptr + i)) ∧
      ∀ e ∈ dropBlock s.live ptr, ∀ x, e.1 ≤ x → x < e.1 + e.2 → h.bytes x = s.heap.bytes x)

/-- The headers alone say which blocks are live. -/
theorem KmemWell.isLive_iff {s' : KmemState} {fl' ks' : List Nat} (W : KmemWell gap s ks fl)
    (W' : KmemWell gap s' ks' fl') (hheap : s'.heap = s.heap) (hlow : 0 < s.heap.init) (p : Nat) :
    s'.IsLive p ↔ s.IsLive p := by
  have hno : ∀ {s : KmemState} {ks fl}, KmemWell gap s ks fl → 0 < s.heap.init → 0 ∉ ks := by
    intro s ks fl W hlow h0
    have hle : s.heap.init ≤ 0 := (W.tiled.bounds h0).1
    omega
  have hfirst : ∀ {s : KmemState} {ks fl}, KmemWell gap s ks fl →
      firstAddr id ks 0 = s.heap.init := by
    intro s ks fl W
    have hhead := W.first
    cases ks with
    | nil => cases hhead
    | cons k ks => exact Option.some.inj hhead
  have hchain := W'.chained
  have hks : ks' = ks := by
    rw [hheap] at hchain
    refine hchain.unique W.chained (fun he => (Prod.mk.inj he).2) (hno W' (hheap ▸ hlow)) (hno W hlow) ?_
    rw [hfirst W', hfirst W, hheap]
  rw [W.blocks, W'.blocks, hks, hheap]

/-- With no size, the old block stays live. -/
theorem KmemRun.krealloc_zero (h : KmemRun True s) (hptr : s.IsLive ptr) :
    ¬ KreallocMeets cfg allow s ptr 0 := by
  rintro ⟨h', p, heq, hfree, -⟩
  have hkeep : FlightOs.krealloc cfg s.heap allow ptr 0 = some (s.heap, 0) := by
    obtain ⟨cs, fl, I, hown⟩ := h
    obtain ⟨a, t, rfl, hc⟩ := hown.of_isLive hptr
    rw [I.krealloc_eq hc, kmalloc_zero]
    rfl
  obtain rfl : s.heap = h' := congrArg Prod.fst (Option.some.inj (hkeep.symm.trans heq))
  have hlow : 0 < s.heap.init := by
    obtain ⟨cs, fl, I, -⟩ := h
    exact (I.range I.init_mem).1
  obtain ⟨ks, fl, W⟩ := h.sound
  obtain ⟨ks', fl', W'⟩ :=
    (h.kfree cfg (Or.inl trivial) (Or.inr hptr)).sound
  obtain ⟨e, he, hep⟩ := (W.isLive_iff W' (hfree rfl).symm hlow ptr).mpr hptr
  have hne := List.of_mem_filter he
  exact absurd hep (by simpa using hne)

/-- A size that fits. -/
theorem KmemRun.krealloc_fits (h : KmemRun True s) (hb : Bounded allow) (hptr : s.IsLive ptr)
    (hpos : 0 < size) (hfits : SizeFits s.heap size) : KreallocMeets cfg allow s ptr size := by
  obtain ⟨r, hr, hrun⟩ := h.krealloc cfg hb (Or.inl trivial) (Or.inr hptr) hfits
  refine ⟨r.1, r.2, hr, fun h0 => absurd h0 hpos.ne', fun _ hp => ?_, fun _ hp => ?_⟩
  all_goals
    obtain ⟨cs, fl, I, hown⟩ := h
    obtain ⟨a, t, rfl, hc⟩ := hown.of_isLive hptr
    rcases I.krealloc cfg hb (Or.inl trivial) hpos hfits hc with
      hfail | ⟨h', k, n, cs', fl', hk, I', hperm, hle, hinit, hcopy, hothers⟩
  · obtain rfl := Option.some.inj (hr.symm.trans hfail)
    rfl
  · obtain rfl := Option.some.inj (hr.symm.trans hk)
    exact absurd hp (by simp)
  · obtain rfl := Option.some.inj (hr.symm.trans hfail)
    exact absurd rfl hp
  · obtain rfl := Option.some.inj (hr.symm.trans hk)
    rw [if_neg hp] at hrun
    have hsize : kmemBlockSize s.heap (a + 32) = t := I.size_eq (mem_liveOf.mp hc).1
    refine ⟨hrun.sound, hsize.symm ▸ hcopy, fun e he x h1 h2 => ?_⟩
    obtain ⟨c, hc', hec, hle'⟩ := hown.chunk (List.mem_of_mem_filter he)
    have hne : e.1 ≠ a + 32 := by simpa using List.of_mem_filter he
    refine hothers c hc' ?_ x (by omega) (by unfold Chunk.stop; omega)
    rintro rfl
    exact hne hec

/-- **What `krealloc` is documented to do** it does if the size is not zero, and fits or is refused. -/
theorem krealloc_iff (cfg : KmemConfig) {s : KmemState}
    (h : (kmemSystem cfg SbrkStays).Reachable KmemOk s) {allow : Nat → Nat → Bool}
    (hallow : SbrkStays allow) {ptr : Nat} (hptr : s.IsLive ptr) (size : Nat) :
    KreallocMeets cfg allow s ptr size ↔
      size ≠ 0 ∧ (SizeFits s.heap size ∨ KmallocRefused s.heap allow size) := by
  have hrun : KmemRun True s := KmemRun.of_reachable (fun _ hA => hA.bounded) (Or.inl trivial) h
  constructor
  · intro hmeets
    have h0 : size ≠ 0 := by
      rintro rfl
      exact hrun.krealloc_zero hptr hmeets
    refine ⟨h0, ?_⟩
    by_contra hno
    obtain ⟨hfits, href⟩ := not_or.mp hno
    obtain ⟨h', p, heq, -, -, hnew⟩ := hmeets
    obtain ⟨cs, fl, I, hown⟩ := hrun
    obtain ⟨a, t, rfl, hc⟩ := hown.of_isLive hptr
    obtain ⟨h₁, p₁, hp₁, hk⟩ :=
      ((I.kmalloc_total allow (Nat.pos_of_ne_zero h0)).resolve_left
        (fun hh => href hh.1)).2
    rw [I.krealloc_eq hc, hk] at heq
    simp only [if_neg hp₁] at heq
    obtain ⟨hh, rfl⟩ := Prod.mk.inj (Option.some.inj heq)
    have hbrk : h'.brk ≤ vmallocEnd := by
      have h₁brk : h₁.brk ≤ vmallocEnd := kmalloc_brk hallow I.brk.2 hk
      rw [← hh]
      exact kfree_brk hallow h₁brk
    have hmem : (p₁, size) ∈ addBlock (dropBlock s.live (a + 32)) p₁ size := by
      rw [addBlock, if_neg hp₁]
      exact List.mem_cons_self
    have hle : p₁ + size ≤ h'.brk := (hnew h0 hp₁).1.le_brk hmem
    refine hfits (sizeFits_of_le ?_)
    unfold vmallocEnd at hbrk
    omega
  · rintro ⟨h0, hfits | href⟩
    · exact hrun.krealloc_fits hallow.bounded hptr (Nat.pos_of_ne_zero h0) hfits
    · obtain ⟨cs, fl, I, hown⟩ := hrun
      obtain ⟨a, t, rfl, hc⟩ := hown.of_isLive hptr
      have hk := ((I.kmalloc_total allow (Nat.pos_of_ne_zero h0)).resolve_right
        (fun hh => hh.1 href)).2
      refine ⟨_, 0, by rw [I.krealloc_eq hc, hk]; rfl, fun hz => absurd hz h0, fun _ _ => rfl,
        fun _ hp => absurd rfl hp⟩

end Resize

/-- Any break in range is granted. -/
def sbrkInRange (brk n : Nat) : Bool := decide (wadd brk (walign n 8) ≤ vmallocEnd)

theorem sbrkInRange_stays : SbrkStays sbrkInRange := fun _ _ _ => of_decide_eq_true

/-- One block of eight bytes. -/
theorem kmemOneBlock : ∃ s, kmemCalls kmemKeeping sbrkInRange (kmemStart sbrkInRange) [.kmalloc 8] =
    some s ∧ (kmemSystem kmemKeeping SbrkStays).Reachable KmemOk s ∧ s.IsLive 0x1000040 := by
  have hrun : (kmemCalls kmemKeeping sbrkInRange (kmemStart sbrkInRange) [.kmalloc 8]).map
      KmemState.live = some [(0x1000040, 8)] := by decide
  obtain ⟨s, hs, hlive⟩ := Option.map_eq_some_iff.mp hrun
  have halong : AlongCalls kmemKeeping sbrkInRange KmemOk (kmemStart sbrkInRange) [.kmalloc 8] :=
    ⟨⟨trivial, sizeFits_of_le (by decide)⟩, fun _ _ => trivial⟩
  exact ⟨s, hs, kmemCalls_reachable sbrkInRange_stays _
    (kmemStart_reachable sbrkInRange_stays (by decide)) halong hs,
    ⟨_, hlive.symm ▸ List.mem_cons_self, rfl⟩⟩

theorem krealloc_iff_grows : ∃ s,
    kmemCalls kmemKeeping sbrkInRange (kmemStart sbrkInRange) [.kmalloc 8] = some s ∧
      (KreallocMeets kmemKeeping sbrkInRange s 0x1000040 16 ↔
        16 ≠ 0 ∧ (SizeFits s.heap 16 ∨ KmallocRefused s.heap sbrkInRange 16)) := by
  obtain ⟨s, hs, hreach, hlive⟩ := kmemOneBlock
  exact ⟨s, hs, krealloc_iff kmemKeeping hreach sbrkInRange_stays hlive 16⟩

/-- `krealloc(ptr, 0)` is no `kfree(ptr)`. -/
theorem krealloc_zero_keeps : ¬ ∀ s, (kmemSystem kmemKeeping SbrkStays).Reachable KmemOk s →
    ∀ ptr, s.IsLive ptr → ∀ size, KreallocMeets kmemKeeping sbrkInRange s ptr size := by
  intro hall
  obtain ⟨s, -, hreach, hlive⟩ := kmemOneBlock
  have hrun : KmemRun True s := KmemRun.of_reachable (fun _ hA => hA.bounded) (Or.inl trivial) hreach
  exact hrun.krealloc_zero hlive (hall s hreach _ hlive 0)

end FlightOs
