/-
# Releasing the last chunk

What `kmem_release_unused` does to a heap in order: a last chunk that is free is taken away, in
whole or, by the lazy release, no more than so many pages of it, and the break is lowered by as
much.  The call does not look at whether `kernel_sbrk` has lowered it: where it has not, the
memory is lost, and the heap has a gap from then on.
-/
import FlightOs.Kmem.Free

namespace FlightOs

/-- The last chunk of the heap is free and about to be released. -/
structure Releasing (gap : Prop) (h : KmemHeap) (pre : List Chunk) (a s : Nat) (fl : List Nat) :
    Prop extends Layout gap h (pre ++ [⟨a, s, .free⟩]) fl where
  last : h.last = a
  avail : h.availBytes = freeBytes pre + s
  settled : ∀ c ∈ pre, c.use = .root ∨ c.use = .live ∨ c.use = .free
  before : pre.IsChain Apart

section Release

variable {gap : Prop} {h h' : KmemHeap} {cs pre post : List Chunk} {fl : List Nat}
  {c d : Chunk} {a s t n x size : Nat} {allow : Nat → Nat → Bool} {cfg : KmemConfig}

theorem HeapInv.releasing (I : HeapInv gap h (pre ++ [⟨a, s, .free⟩]) fl) :
    Releasing gap h pre a s fl := by
  refine ⟨I.toLayout, I.last.trans lastAddr_concat, ?_, fun c hc => ?_, ?_⟩
  · rw [I.avail]
    simp [Chunk.freeSize]
  · exact I.settled c (List.mem_append_left _ hc)
  · exact (List.isChain_append.mp I.coalesced).1

/-- The size that the lazy release leaves to be taken away. -/
def lazySize (cfg : KmemConfig) (s : Nat) : Nat :=
  if cfg.pagesReleaseMax ≠ 0 ∧ wadd kmemHeader (cfg.pagesReleaseMax * 4096) < s then
    cfg.pagesReleaseMax * 4096 % 2 ^ 32
  else s

/-- **The lazy release** cuts the last chunk down; the rest of it stays, last on the list. -/
theorem HeapInv.lazy (I : HeapInv gap h (pre ++ [⟨a, s, .free⟩]) fl) :
    ∃ pre' a' fl', Releasing gap (kmemLazyRelease cfg h) pre' a' (lazySize cfg s) fl' ∧
      liveOf pre' = liveOf pre ∧ (kmemLazyRelease cfg h).init = h.init ∧
      (kmemLazyRelease cfg h).brk = h.brk ∧
      ∀ x, LiveByte (pre ++ [⟨a, s, .free⟩]) x → (kmemLazyRelease cfg h).bytes x = h.bytes x := by
  have L := I.toLayout
  have hlast : h.last = a := I.last.trans lastAddr_concat
  have hsize : (h.hdr a).size = s := by
    rw [L.header_eq]
    rfl
  have hmost : wadd kmemHeader (cfg.pagesReleaseMax * 4096) =
      cfg.pagesReleaseMax * 4096 % 2 ^ 32 + 32 := by
    unfold wadd kmemHeader
    omega
  by_cases hcut : cfg.pagesReleaseMax ≠ 0 ∧
      wadd kmemHeader (cfg.pagesReleaseMax * 4096) < s
  · have hM : 8 ∣ cfg.pagesReleaseMax * 4096 % 2 ^ 32 := by omega
    rw [lazySize, if_pos hcut]
    rw [hmost] at hcut
    generalize cfg.pagesReleaseMax * 4096 % 2 ^ 32 = m at *
    have hrange : 0 < a ∧ a + 32 + s < 2 ^ 29 := L.range (c := ⟨a, s, .free⟩) (by simp)
    have halign : 8 ∣ a ∧ 8 ∣ s := L.aligned ⟨a, s, .free⟩ (by simp)
    have hn : wsub s (m + 32) = s - m - 32 := by
      rw [wsub_of_le (by omega) (by omega)]
      omega
    have hlen : 8 ∣ s - m - 32 := by omega
    have hfit : s - m - 32 + 32 ≤ s := by omega
    have hrest : s - (s - m - 32) - 32 = m := by omega
    have S := L.split_off (by decide) hlen hfit
    have L₁ := L.split (by decide) hlen hfit
    have hb := fun x hx => L.split_bytes (x := x) (by decide) (by decide) hlen hfit hx
    generalize s - m - 32 = n at *
    rw [hrest] at L₁
    have hbytes := L.freeBytes_lt
    have hfree : freeBytes (pre ++ [⟨a, s, .free⟩]) = freeBytes pre + s := by
      simp [Chunk.freeSize]
    have havail : wadd (wsub (wadd h.availBytes m) s) n = freeBytes pre + n + m := by
      have h1 : wadd h.availBytes m = freeBytes pre + m + s := by
        rw [I.avail, hfree, wadd_of_lt (by omega)]
        omega
      rw [h1, wsub_of_le (by omega) (by omega), Nat.add_sub_cancel, wadd_of_lt (by omega)]
      omega
    have hsize₁ : ((kmemSplit h a n).hdr a).size = n := by rw [S.self]
    have hsplitav : (kmemSplit h a n).availBytes = wadd h.availBytes m := by rw [S.avail, hrest]
    have hlazy : kmemLazyRelease cfg h = { kmemSplit h a n with
        availBytes := freeBytes pre + n + m
        links := listAddTail (listDelInit (kmemSplit h a n).links a) a (kmemSplit h a n).init } := by
      simp only [kmemLazyRelease, if_neg hcut.1, hlast, hsize, hmost, if_neg (not_le.mpr hcut.2), hn,
        hsize₁, hsplitav, havail]
    have L₂ : Layout gap (kmemLazyRelease cfg h)
        (pre ++ ⟨a, n, .free⟩ :: [⟨a + 32 + n, m, .free⟩]) ((fl ++ [a + 32 + n]).erase a ++ [a]) := by
      rw [hlazy]
      exact L₁.takeDelInit.give.congr rfl rfl (fun _ _ => rfl) rfl
    refine ⟨pre ++ [⟨a, n, .free⟩], a + 32 + n, _, ⟨by simpa using L₂, ?_, ?_, fun c hc => ?_, ?_⟩,
      ?_, ?_, ?_, fun x hx => ?_⟩
    · rw [hlazy]
      exact S.last
    · rw [hlazy]
      simp [Chunk.freeSize]
    · rcases List.mem_append.mp hc with hc | hc
      · exact I.settled c (List.mem_append_left _ hc)
      · rw [List.mem_singleton] at hc
        rw [hc]
        exact Or.inr (Or.inr rfl)
    · obtain ⟨h1, -, h3, -⟩ := isChain_mid.mp I.coalesced
      exact isChain_mid.mpr ⟨h1, List.isChain_nil, h3, fun y hy => absurd hy (by simp)⟩
    · rw [liveOf_append, liveOf_cons_ne (by simp), liveOf_nil, List.append_nil]
    · rw [hlazy]
      exact S.init
    · rw [hlazy]
      exact S.brk
    · rw [hlazy]
      exact hb x hx
  · have hsame : kmemLazyRelease cfg h = h := by
      unfold kmemLazyRelease
      simp only [hlast, hsize]
      by_cases h0 : cfg.pagesReleaseMax = 0
      · exact if_pos h0
      · rw [if_neg h0, if_pos (not_lt.mp (fun hlt => hcut ⟨h0, hlt⟩))]
    rw [lazySize, if_neg hcut, hsame]
    exact ⟨pre, a, fl, I.releasing, rfl, rfl, rfl, fun _ _ => rfl⟩

/-- Where a gap-free heap ends below its last chunk. -/
theorem Layout.meets_below (L : Layout gap h (pre ++ [c] ++ [⟨a, s, .free⟩]) fl) :
    Meets gap c.stop a ∧ Meets gap (a + 32 + s) h.brk := by
  obtain ⟨m, h1, h2, -, h4⟩ := tiled_mid.mp L.tiled
  obtain ⟨-, -, -, -, h3⟩ := tiled_mid.mp h1
  exact ⟨Meets.trans h3 h2, h4⟩

/-- The rest of `kmem_release_unused`: the last chunk is taken away and the break is moved. -/
def kmemShrink (h : KmemHeap) (allow : Nat → Nat → Bool) : KmemHeap :=
  ((kmemDropLast h).sbrk allow (wsub 0 (wadd ((kmemDropLast h).hdr h.last).size kmemHeader))).1

/-- **The last chunk is taken away**, and the break is lowered by as much as it was, or not. -/
theorem Releasing.drop (R : Releasing gap h pre a s fl) (hallow : gap ∨ Grants allow) :
    HeapInv gap (kmemShrink h allow) pre (fl.erase a) ∧ (kmemShrink h allow).init = h.init ∧
      (∀ x, LiveByte (pre ++ [⟨a, s, .free⟩]) x → (kmemShrink h allow).bytes x = h.bytes x) ∧
      (kmemShrink h allow).brk =
        if allow h.brk (2 ^ 32 - (s + 32)) then h.brk - (s + 32) else h.brk := by
  have L₀ := R.toLayout
  obtain ⟨pre, c, rfl⟩ := R.root.before (by simp)
  have L' : Layout gap h (pre ++ c :: [⟨a, s, .free⟩]) fl := by simpa using L₀
  have hprev : (h.hdr a).prev = c.addr := by
    rw [L₀.header_eq]
    exact lastAddr_concat
  have hsize : (h.hdr a).size = s := by
    rw [L₀.header_eq]
    rfl
  have hca : c.addr + 32 + c.size ≤ a := L'.sorted.2 ⟨a, s, .free⟩ List.mem_cons_self
  have hne : c.addr ≠ a := by omega
  have hpre : ∀ d ∈ pre, d.addr + 32 + d.size ≤ c.addr := L'.sorted.1
  have hbound : h.init ≤ a ∧ a + 32 + s ≤ h.brk := L₀.bounds (c := ⟨a, s, .free⟩) (by simp)
  have hbrk := L₀.brk
  have halign : 8 ∣ a ∧ 8 ∣ s := L₀.aligned ⟨a, s, .free⟩ (by simp)
  have hend := hbrk.2
  unfold vmallocEnd at hend
  have hfree : freeBytes (pre ++ [c] ++ [⟨a, s, .free⟩]) = freeBytes (pre ++ [c]) + s := by
    rw [freeBytes_append]
    simp only [freeBytes_cons, freeBytes_nil, Chunk.freeSize, if_true, Nat.add_zero]
  have hbytes := L₀.freeBytes_lt
  have havail : wsub h.availBytes s = freeBytes (pre ++ [c]) := by
    rw [R.avail, wsub_of_le (by omega) (by omega)]
    omega
  have hinc : wsub 0 (wadd s kmemHeader) = 2 ^ 32 - (s + 32) := by
    have hadd : wadd s kmemHeader = s + 32 := by
      unfold kmemHeader
      exact wadd_of_lt (by omega)
    rw [hadd, wsub_of_lt (by omega) (by omega)]
    omega
  -- the heap without the chunk, and the break as the call leaves it
  let h₁ : KmemHeap := { h with
    hdr := Function.update (Function.update h.hdr c.addr { h.hdr c.addr with next := 0 }) a
      { h.hdr a with free := 0, magic := 0 }
    bytes := (kmemDropLast h).bytes
    last := c.addr
    availBytes := freeBytes (pre ++ [c])
    links := listDel h.links a }
  have hdrop : kmemDropLast h = h₁ := by
    simp only [h₁, kmemDropLast, KmemHeap.set, R.last, hprev, Function.update_of_ne (Ne.symm hne),
      hsize, havail]
  have hb : ∀ x, LiveByte (pre ++ [c] ++ [⟨a, s, .free⟩]) x →
      (kmemDropLast h).bytes x = h.bytes x := by
    intro x hx
    have h1 := L₀.live_outside hx (d := ⟨a, s, .free⟩) (by simp)
    have h2 := L₀.live_outside hx (d := c) (by simp)
    simp only [kmemDropLast, KmemHeap.set, R.last, hprev, if_neg h1, if_neg h2]
  have hsbrk : kmemShrink h allow = { h₁ with
        brk := if allow h.brk (2 ^ 32 - (s + 32)) then h.brk - (s + 32) else h.brk } := by
    have hs₁ : (h₁.hdr a).size = s := by
      simp only [h₁, Function.update_self, hsize]
    have hal : wadd h.brk (walign (2 ^ 32 - (s + 32)) 8) = h.brk - (s + 32) := by
      rw [walign_of_dvd (by norm_num) (by omega) (by omega)]
      unfold wadd
      omega
    rw [kmemShrink, hdrop, R.last, hs₁, hinc, KmemHeap.sbrk, if_neg (by omega)]
    show (if allow h.brk (2 ^ 32 - (s + 32)) = true then
      ({ h₁ with brk := wadd h.brk (walign (2 ^ 32 - (s + 32)) 8) }, h.brk) else (h₁, sbrkError)).1 = _
    rw [hal]
    split <;> rfl
  obtain ⟨hm1, hm2⟩ := L₀.meets_below
  have hmeets : Meets gap c.stop
      (if allow h.brk (2 ^ 32 - (s + 32)) then h.brk - (s + 32) else h.brk) := by
    split
    next =>
      refine hm1.trans ?_
      rcases hm2 with he | ⟨hg, hle⟩
      · exact Or.inl (by omega)
      · exact Or.inr ⟨hg, by omega⟩
    next hno =>
      have hgap : gap := hallow.resolve_right (fun hg => hno (hg _ _ (by omega)))
      exact Or.inr ⟨hgap, (hm1.le.trans (by omega : a ≤ a + 32 + s)).trans hm2.le⟩
  rw [hsbrk]
  refine ⟨⟨L₀.shrink (by decide) rfl ?_ ?_ hmeets (listDel_ring L₀.ring L₀.mem_of_free) ?_
    (fun d hd => ?_), ?_, rfl, R.settled, R.before⟩, rfl, hb, rfl⟩
  · show 8 ∣ if allow h.brk (2 ^ 32 - (s + 32)) then h.brk - (s + 32) else h.brk
    split
    · omega
    · exact hbrk.1
  · show (if allow h.brk (2 ^ 32 - (s + 32)) then h.brk - (s + 32) else h.brk) ≤ h.brk
    split
    · exact Nat.sub_le _ _
    · exact le_refl _
  · simp only [h₁, Function.update_of_ne hne, Function.update_self]
  · have := hpre d hd
    simp only [h₁]
    rw [Function.update_of_ne (by omega), Function.update_of_ne (by omega)]
  · rw [lastAddr_concat]

/-! ## 3. `kmem_release_unused` -/

/-- The size of what is taken away of a last chunk of size `s`. -/
def releaseSize (cfg : KmemConfig) (s : Nat) : Nat :=
  if cfg.releaseUnusedLazy then lazySize cfg s else s

/-- The heap whose last chunk is taken away. -/
def kmemReleaseCut (cfg : KmemConfig) (h : KmemHeap) : KmemHeap :=
  if cfg.releaseUnusedLazy then kmemLazyRelease cfg h else h

theorem kmemReleaseUnused_eq (hfree : (h.hdr h.last).free = kmemFreeMagic) :
    kmemReleaseUnused cfg h allow = kmemShrink (kmemReleaseCut cfg h) allow := by
  rw [kmemReleaseUnused, if_neg (fun e => e hfree)]
  rfl

variable (cfg) in
theorem HeapInv.cut (I : HeapInv gap h (pre ++ [⟨a, s, .free⟩]) fl) :
    ∃ pre' a' fl', Releasing gap (kmemReleaseCut cfg h) pre' a' (releaseSize cfg s) fl' ∧
      liveOf pre' = liveOf pre ∧ (kmemReleaseCut cfg h).init = h.init ∧
      (kmemReleaseCut cfg h).brk = h.brk ∧
      ∀ x, LiveByte (pre ++ [⟨a, s, .free⟩]) x → (kmemReleaseCut cfg h).bytes x = h.bytes x := by
  unfold kmemReleaseCut releaseSize
  by_cases hlazy : cfg.releaseUnusedLazy
  · rw [if_pos hlazy, if_pos hlazy]
    exact I.lazy
  · rw [if_neg hlazy, if_neg hlazy]
    exact ⟨pre, a, fl, I.releasing, rfl, rfl, rfl, fun _ _ => rfl⟩

/-- There is a last chunk, and it is free by its header when it is on the list. -/
theorem HeapInv.last_chunk (I : HeapInv gap h cs fl) :
    ∃ pre c, cs = pre ++ [c] ∧ h.last = c.addr ∧
      ((h.hdr h.last).free = kmemFreeMagic ↔ c.use = .free) := by
  obtain ⟨rest, heq, -⟩ := I.root
  rcases List.eq_nil_or_concat cs with rfl | ⟨pre, c, rfl⟩
  · cases heq
  · rw [List.concat_eq_append] at *
    have hlast : h.last = c.addr := I.last.trans lastAddr_concat
    have hfree : (h.hdr c.addr).free = if c.use = .free ∨ c.use = .taken then kmemFreeMagic else 0 := by
      rw [I.header_eq]
      rfl
    refine ⟨pre, c, rfl, hlast, ?_⟩
    rw [hlast, hfree]
    rcases I.settled c (by simp) with hu | hu | hu <;> rw [hu] <;> simp [kmemFreeMagic]

variable (cfg) in
/-- **`kmem_release_unused` keeps the invariant**, the live blocks and what is in them. -/
theorem HeapInv.releaseUnused (I : HeapInv gap h cs fl) (hallow : gap ∨ Grants allow) :
    ∃ cs' fl', HeapInv gap (kmemReleaseUnused cfg h allow) cs' fl' ∧ liveOf cs' = liveOf cs ∧
      (kmemReleaseUnused cfg h allow).init = h.init ∧
      ∀ x, LiveByte cs x → (kmemReleaseUnused cfg h allow).bytes x = h.bytes x := by
  obtain ⟨pre, ⟨a, s, u⟩, rfl, -, hiff⟩ := I.last_chunk
  by_cases hu : u = .free
  · subst hu
    rw [kmemReleaseUnused_eq (hiff.mpr rfl)]
    obtain ⟨pre', a', fl', R, hlive, hinit, -, hbytes⟩ := I.cut cfg
    obtain ⟨I', hinit', hbytes', -⟩ := R.drop hallow
    have hsame : liveOf (pre' ++ [⟨a', releaseSize cfg s, .free⟩]) = liveOf (pre ++ [⟨a, s, .free⟩]) := by
      rw [liveOf_append, liveOf_append, hlive, liveOf_cons_ne (by simp), liveOf_cons_ne (by simp)]
    refine ⟨pre', _, I', ?_, hinit'.trans hinit, fun x hx => ?_⟩
    · rw [liveOf_append, liveOf_cons_ne (by simp), liveOf_nil, List.append_nil, hlive]
    · refine (hbytes' x ?_).trans (hbytes x hx)
      rw [liveByte_iff] at hx ⊢
      rwa [hsame]
  · rw [kmemReleaseUnused, if_pos (fun e => hu (hiff.mp e))]
    exact ⟨_, fl, I, rfl, rfl, fun _ _ => rfl⟩

/-! ## 4. `kfree` -/

variable (cfg) in
/-- **Freeing keeps the invariant**: one live block less, and the others untouched. -/
theorem HeapInv.kfreeChunk (I : HeapInv gap h (pre ++ ⟨a, s, .live⟩ :: post) fl)
    (hallow : gap ∨ Grants allow) :
    ∃ cs' fl', HeapInv gap (FlightOs.kfreeChunk cfg h allow a) cs' fl' ∧
      liveOf cs' = liveOf (pre ++ post) ∧ (FlightOs.kfreeChunk cfg h allow a).init = h.init ∧
      ∀ x, LiveByte (pre ++ post) x → (FlightOs.kfreeChunk cfg h allow a).bytes x = h.bytes x := by
  let h₁ : KmemHeap := h.set a { h.hdr a with free := kmemFreeMagic, magic := 0 }
  have F₁ : Freeing gap h₁ pre post a s fl := I.freeing
  obtain ⟨t₂, post₂, fl₂, F₂, hpost, hl₂, hi₂, -, hb₂⟩ := F₁.next
  obtain ⟨k, t₃, pre₃, fl₃, hk, F₃, hpre, hl₃, hi₃, -, hb₃⟩ := F₂.prev
  have I₄ := F₃.list hpre hpost
  have hlive : liveOf (pre₃ ++ ⟨k, t₃, .free⟩ :: post₂) = liveOf (pre ++ post) := by
    rw [liveOf_append, liveOf_cons_ne (by simp), hl₂, hl₃, liveOf_append]
  have hbytes : ∀ x, LiveByte (pre ++ post) x →
      (kfreeList (kfreePrev (kfreeNext h₁ a) a).1 k).bytes x = h.bytes x := by
    intro x hx
    have h1 : LiveByte (pre ++ post₂) x := by
      rw [liveByte_iff, liveOf_append, hl₂, ← liveOf_append, ← liveByte_iff]
      exact hx
    have h2 : LiveByte (pre ++ ⟨a, s, .live⟩ :: post) x := by
      obtain ⟨c, hc, hrest⟩ := hx
      exact ⟨c, List.mem_append.mpr ((List.mem_append.mp hc).imp_right (List.mem_cons_of_mem _)), hrest⟩
    have h0 : h₁.bytes x = h.bytes x :=
      if_neg (I.live_outside h2 (d := ⟨a, s, .live⟩) (by simp))
    have hgive : (kfreeList (kfreePrev (kfreeNext h₁ a) a).1 k).bytes x =
        (kfreePrev (kfreeNext h₁ a) a).1.bytes x := by
      simp only [kfreeList]
      split <;> rfl
    rw [hgive, hb₃ x h1, hb₂ x hx, h0]
  have hinit : (kfreeList (kfreePrev (kfreeNext h₁ a) a).1 k).init = h.init := by
    have hgive : (kfreeList (kfreePrev (kfreeNext h₁ a) a).1 k).init =
        (kfreePrev (kfreeNext h₁ a) a).1.init := by
      simp only [kfreeList]
      split <;> rfl
    rw [hgive, hi₃, hi₂]
    rfl
  have heq : FlightOs.kfreeChunk cfg h allow a =
      if cfg.releaseUnused ∧ ¬ cfg.releaseBackground then
        kmemReleaseUnused cfg (kfreeList (kfreePrev (kfreeNext h₁ a) a).1 k) allow
      else kfreeList (kfreePrev (kfreeNext h₁ a) a).1 k := by
    rw [← hk]
    rfl
  rw [heq]
  split
  · obtain ⟨cs', fl', I', hl', hi', hb'⟩ := I₄.releaseUnused cfg hallow
    refine ⟨cs', fl', I', hl'.trans hlive, hi'.trans hinit, fun x hx => (hb' x ?_).trans (hbytes x hx)⟩
    rw [liveByte_iff, hlive, ← liveByte_iff]
    exact hx
  · exact ⟨_, _, I₄, hlive, hinit, hbytes⟩

/-- The checks of `kfree` let every live block through. -/
theorem HeapInv.kfree_eq (I : HeapInv gap h (pre ++ ⟨a, s, .live⟩ :: post) fl) :
    kfree cfg h allow (a + 32) = FlightOs.kfreeChunk cfg h allow a := by
  have hbounds : h.init ≤ a ∧ a + 32 + s ≤ h.brk := I.bounds (c := ⟨a, s, .live⟩) (by simp)
  have hrange : 0 < a ∧ a + 32 + s < 2 ^ 29 := I.range (c := ⟨a, s, .live⟩) (by simp)
  have hk : wsub (a + 32) kmemHeader = a := by
    unfold kmemHeader
    rw [wsub_of_le (by omega) (by omega), Nat.add_sub_cancel]
  have hhdr : h.hdr a = (⟨a, s, .live⟩ : Chunk).header (lastAddr Chunk.addr 0 pre)
      (firstAddr Chunk.addr post 0) := I.header_eq
  have hdata : (h.hdr a).data = a + 32 := by
    rw [hhdr]
    rfl
  have hmagic : (h.hdr a).magic = kmemMagic := by
    rw [hhdr]
    rfl
  have hnext : ¬ ((h.hdr a).next ≠ 0 ∧ (h.hdr (h.hdr a).next).free ≠ 0 ∧
      (h.hdr (h.hdr a).next).free ≠ kmemFreeMagic) := by
    rintro ⟨h1, h2, h3⟩
    cases post with
    | nil =>
      rw [hhdr] at h1
      exact h1 rfl
    | cons c post =>
      have L' : Layout gap h ((pre ++ [⟨a, s, .live⟩]) ++ c :: post) fl := by
        simpa using I.toLayout
      have hc : (h.hdr a).next = c.addr := by
        rw [hhdr]
        rfl
      have hfree : (h.hdr c.addr).free =
          if c.use = .free ∨ c.use = .taken then kmemFreeMagic else 0 := by
        rw [L'.header_eq]
        rfl
      rw [hc, hfree] at h2 h3
      split at h3
      · exact h3 rfl
      next hno => exact h2 (if_neg hno)
  unfold kfree
  rw [if_neg (by omega), if_neg (by unfold highmemStart; omega), if_neg (by omega),
    if_neg (by omega), hk]
  simp only [hdata, hmagic, ne_eq, not_true_eq_false, if_false]
  exact if_neg hnext

end Release

end FlightOs
