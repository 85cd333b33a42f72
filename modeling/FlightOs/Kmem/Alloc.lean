/-
# Allocation

What `kmalloc` does to a heap in order: it fails and leaves the heap as it is, or it has one more
live block, at least as large as asked for, and the other live blocks are untouched.  There are
three ways to get the block: from the free list, with what is too much split off; by moving the
break behind a last chunk that is free; or in a fresh chunk behind the last one.
-/
import FlightOs.Kmem.Inv

namespace FlightOs

/-! ## 1. Neighbours -/

section Apart

variable {pre post : List Chunk} {c c' : Chunk}

theorem apart_of_left (h : c.use ≠ .free) : Apart c c' := fun e => h e.1

theorem apart_of_right (h : c'.use ≠ .free) : Apart c c' := fun e => h e.2

theorem isChain_mid : (pre ++ c :: post).IsChain Apart ↔
    pre.IsChain Apart ∧ post.IsChain Apart ∧ (∀ x ∈ pre.getLast?, Apart x c) ∧
      ∀ y ∈ post.head?, Apart c y := by
  rw [List.isChain_append, List.isChain_cons]
  simp only [List.head?_cons, Option.mem_some_iff, forall_eq']
  tauto

end Apart

/-! ## 2. The end of `kmalloc` -/

section Alloc

variable {gap : Prop} {h h' : KmemHeap} {cs pre post : List Chunk} {fl : List Nat}
  {c d : Chunk} {a s n x size : Nat} {allow : Nat → Nat → Bool}

/-- The heap `h'` has the block `k` more than `h`. -/
def Allocates (gap : Prop) (h h' : KmemHeap) (cs : List Chunk) (k size : Nat) : Prop :=
  ∃ cs' fl' s, HeapInv gap h' cs' fl' ∧ (liveOf cs').Perm (⟨k, s, .live⟩ :: liveOf cs) ∧
    size ≤ s ∧ h'.init = h.init ∧ ∀ x, LiveByte cs x → h'.bytes x = h.bytes x

theorem Layout.success (L : Layout gap h (pre ++ ⟨a, s, .taken⟩ :: post) fl) :
    (kmallocSuccess h a).2 = a + 32 ∧
      Layout gap (kmallocSuccess h a).1 (pre ++ ⟨a, s, .live⟩ :: post) fl ∧
      (kmallocSuccess h a).1.last = h.last ∧ (kmallocSuccess h a).1.availBytes = h.availBytes ∧
      (kmallocSuccess h a).1.init = h.init ∧
      ∀ x, ¬ (a ≤ x ∧ x < a + kmemHeader) → (kmallocSuccess h a).1.bytes x = h.bytes x := by
  have L' : Layout gap (kmallocSuccess h a).1 (pre ++ ⟨a, s, .live⟩ :: post) fl :=
    (L.initNode (by decide) (by decide)).markLive
  refine ⟨?_, L', rfl, rfl, rfl, fun x hx => if_neg hx⟩
  have hdata : ((kmallocSuccess h a).1.hdr a).data = a + 32 := by
    rw [L'.header_eq]
    rfl
  exact hdata

/-- The pieces of an invariant that a block in the place of a free chunk leaves to be shown. -/
theorem HeapInv.allocates (I : HeapInv gap h (pre ++ ⟨a, s, .free⟩ :: post) fl) {t : Nat}
    {fl' : List Nat} (rest : List Chunk)
    (L : Layout gap h' (pre ++ ⟨a, t, .live⟩ :: (rest ++ post)) fl')
    (hrest : rest = [] ∨ ∃ d, rest = [d] ∧ d.use = .free)
    (hlast : h'.last = lastAddr Chunk.addr 0 (pre ++ ⟨a, t, .live⟩ :: (rest ++ post)))
    (havail : h'.availBytes = freeBytes pre + freeBytes rest + freeBytes post)
    (hsize : size ≤ t) (hinit : h'.init = h.init)
    (hbytes : ∀ x, LiveByte (pre ++ ⟨a, s, .free⟩ :: post) x → h'.bytes x = h.bytes x) :
    Allocates gap h h' (pre ++ ⟨a, s, .free⟩ :: post) a size := by
  obtain ⟨h1, h2, h3, h4⟩ := isChain_mid.mp I.coalesced
  have hlive : liveOf rest = [] := by
    rcases hrest with rfl | ⟨d, rfl, hd⟩
    · rfl
    · rw [liveOf_cons_ne (by rw [hd]; decide), liveOf_nil]
  refine ⟨_, fl', t, ⟨L, hlast, ?_, fun c hc => ?_, ?_⟩, ?_, hsize, hinit, hbytes⟩
  · rw [havail]
    simp only [freeBytes_append, freeBytes_cons, Chunk.freeSize]
    simp only [reduceCtorEq, if_false]
    omega
  · simp only [List.mem_append, List.mem_cons] at hc
    have hold := I.settled c
    simp only [List.mem_append, List.mem_cons] at hold
    rcases hc with hc | rfl | hc | hc
    · exact hold (Or.inl hc)
    · exact Or.inr (Or.inl rfl)
    · rcases hrest with rfl | ⟨d, rfl, hd⟩
      · exact absurd hc List.not_mem_nil
      · rw [List.mem_singleton] at hc
        exact Or.inr (Or.inr (hc ▸ hd))
    · exact hold (Or.inr (Or.inr hc))
  · have hpost : (rest ++ post).IsChain Apart := by
      rcases hrest with rfl | ⟨d, rfl, hd⟩
      · exact h2
      · refine List.isChain_cons.mpr ⟨fun y hy => ?_, h2⟩
        exact apart_of_right (fun e => h4 y hy ⟨rfl, e⟩)
    exact isChain_mid.mpr ⟨h1, hpost, fun _ _ => apart_of_right (by simp),
      fun _ _ => apart_of_left (by simp)⟩
  · rw [liveOf_append, liveOf_append, liveOf_cons_live rfl, liveOf_cons_ne (by simp), liveOf_append,
      hlive, List.nil_append]
    exact List.perm_middle

/-! ## 3. A chunk of the free list -/

theorem lastAddr_mid (p : Nat) :
    lastAddr Chunk.addr p (pre ++ c :: post) = lastAddr Chunk.addr c.addr post := by
  rw [lastAddr_append]
  rfl

/-- **Reuse of a free chunk**, with or without a split. -/
theorem HeapInv.reuse (I : HeapInv gap h (pre ++ ⟨a, s, .free⟩ :: post) fl) (hn : 8 ∣ n)
    (hfit : n ≤ s) (hsize : size ≤ n) :
    ∃ h', kmallocReuse { h with links := listDelInit h.links a } a n = (h', a + 32) ∧
      Allocates gap h h' (pre ++ ⟨a, s, .free⟩ :: post) a size := by
  have L := I.toLayout
  have hsa : (h.hdr a).size = s := by
    rw [L.header_eq]
    rfl
  have hrange : 0 < a ∧ a + 32 + s < 2 ^ 29 := L.range (c := ⟨a, s, .free⟩) (by simp)
  have hbytes := L.freeBytes_lt
  have hfree : freeBytes (pre ++ ⟨a, s, .free⟩ :: post) = freeBytes pre + (s + freeBytes post) := by
    simp [Chunk.freeSize]
  have havail : wsub h.availBytes s = freeBytes pre + freeBytes post := by
    rw [I.avail, wsub_of_le (by omega) (by omega)]
    omega
  -- the chunk is off the list and no longer counted
  let h₁ : KmemHeap :=
    { h with links := listDelInit h.links a, availBytes := freeBytes pre + freeBytes post }
  have hav₁ : h₁.availBytes = freeBytes pre + freeBytes post := rfl
  have L₁ : Layout gap h₁ (pre ++ ⟨a, s, .taken⟩ :: post) (fl.erase a) :=
    L.take rfl rfl rfl (listDelInit_ring L.ring L.mem_of_free)
  have hreuse : kmallocReuse { h with links := listDelInit h.links a } a n =
      kmallocSuccess (if wadd n kmemHeader < s then kmemSplit h₁ a n else h₁) a := by
    simp only [kmallocReuse, hsa, havail]
    rfl
  have hlive : ∀ x, LiveByte (pre ++ ⟨a, s, .free⟩ :: post) x →
      LiveByte (pre ++ ⟨a, s, .taken⟩ :: post) x := by
    intro x hx
    rw [liveByte_iff] at hx ⊢
    simpa using hx
  have hwadd : wadd n kmemHeader = n + 32 := by
    unfold kmemHeader
    exact wadd_of_lt (by omega)
  rw [hreuse]
  by_cases hs : wadd n kmemHeader < s
  · rw [if_pos hs]
    have hfit' : n + 32 ≤ s := by omega
    have S := L₁.split_off (by decide) hn hfit'
    have L₂ := L₁.split (by decide) hn hfit'
    obtain ⟨hptr, L₃, hlast, havail₃, hinit, hb⟩ := L₂.success
    refine ⟨_, Prod.ext rfl hptr, I.allocates [⟨a + 32 + n, s - n - 32, .free⟩] L₃
      (Or.inr ⟨_, rfl, rfl⟩) ?_ ?_ hsize (hinit.trans S.init) (fun x hx => ?_)⟩
    · rw [hlast, S.last, lastAddr_mid]
      cases post with
      | nil => rfl
      | cons d post =>
        have hd := (L.range (c := d) (by simp)).1
        rw [firstAddr_cons, if_neg hd.ne', I.last, lastAddr_mid]
        rfl
    · rw [havail₃, S.avail, hav₁, wadd_of_lt]
      · simp only [freeBytes_cons, freeBytes_nil, Chunk.freeSize, if_true]
        omega
      · omega
    · rw [hb x (L.live_outside hx (d := ⟨a, s, .free⟩) (by simp)),
        L₁.split_bytes (by decide) (by decide) hn hfit' (hlive x hx)]
  · rw [if_neg hs]
    obtain ⟨hptr, L₂, hlast, havail₂, hinit, hb⟩ := L₁.success
    refine ⟨_, Prod.ext rfl hptr, I.allocates [] L₂ (Or.inl rfl) ?_ ?_
      (hsize.trans hfit) hinit (fun x hx => ?_)⟩
    · rw [hlast, lastAddr_mid]
      exact I.last.trans (lastAddr_mid 0)
    · rw [havail₂, hav₁, freeBytes_nil, Nat.add_zero]
    · rw [hb x (L.live_outside hx (d := ⟨a, s, .free⟩) (by simp))]

/-! ## 4. Moving the break -/

theorem sbrk_refused (hn : n ≠ 0) (h0 : allow h.brk n ≠ true) : h.sbrk allow n = (h, sbrkError) := by
  rw [KmemHeap.sbrk, if_neg hn, if_neg h0]

/-- A positive increment that is granted. -/
theorem Layout.sbrk_granted (L : Layout gap h cs fl) (hb : Bounded allow) (hn : n ≠ 0)
    (hd : 8 ∣ n) (hlt : n < 2 ^ 31) (hok : allow h.brk n = true) :
    h.sbrk allow n = ({ h with brk := h.brk + n }, h.brk) ∧ h.brk + n ≤ vmallocEnd ∧
      h.brk ≠ sbrkError := by
  have halign : walign n 8 = n := walign_of_dvd (by norm_num) (by omega) hd
  have hbrk := L.brk.2
  have hle := hb _ _ hbrk hlt hok
  rw [halign] at hle
  refine ⟨?_, hle, ?_⟩
  · rw [KmemHeap.sbrk, if_neg hn, if_pos hok, halign, wadd_of_lt]
    unfold vmallocEnd at hle
    omega
  · unfold vmallocEnd at hbrk
    unfold sbrkError
    omega

/-- A chunk at the end of the heap reaches no further than the break. -/
theorem Layout.size_at_brk (L : Layout gap h (pre ++ [⟨a, s, .free⟩]) fl) {e : Nat}
    (he : e ≤ vmallocEnd) (hle : h.brk ≤ e) :
    wsub (wsub e a) kmemHeader = e - a - 32 ∧ a + 32 + s ≤ h.brk := by
  have hbound : h.init ≤ a ∧ a + 32 + s ≤ h.brk := L.bounds (c := ⟨a, s, .free⟩) (by simp)
  unfold vmallocEnd at he
  refine ⟨?_, hbound.2⟩
  rw [wsub_of_le (a := e) (by omega) (by omega), kmemHeader, wsub_of_le (by omega) (by omega)]

/-- **The last chunk is free but too small**: it grows with the break. -/
theorem HeapInv.expand (I : HeapInv gap h (pre ++ [⟨a, s, .free⟩]) fl) (hb : Bounded allow)
    (hn : 8 ∣ n) (hn32 : n < 2 ^ 32) (hlt : n - s < 2 ^ 31) (hs : s < n) (hsize : size ≤ n) :
    kmallocExpand h allow n = ({ h with allocFail := 1 }, 0) ∨
    ∃ h', kmallocExpand h allow n = (h', a + 32) ∧
      Allocates gap h h' (pre ++ [⟨a, s, .free⟩]) a size := by
  have L := I.toLayout
  have hlast : h.last = a := I.last.trans lastAddr_concat
  have hsa : (h.hdr a).size = s := by
    rw [L.header_eq]
    rfl
  have halign : 8 ∣ a ∧ 8 ∣ s := L.aligned ⟨a, s, .free⟩ (by simp)
  have hinc : wsub n s = n - s := wsub_of_le hn32 hs.le
  by_cases hok : allow h.brk (n - s) = true
  · right
    obtain ⟨hsbrk, hend, herr⟩ := L.sbrk_granted hb (by omega) (by omega) (by omega) hok
    obtain ⟨hnew, hle⟩ := L.size_at_brk hend (Nat.le_add_right _ _)
    have hbytes := L.freeBytes_lt
    have hfree : freeBytes (pre ++ [⟨a, s, .free⟩]) = freeBytes pre + s := by
      simp [Chunk.freeSize]
    have havail : wsub h.availBytes s = freeBytes pre := by
      rw [I.avail, wsub_of_le (by omega) (by omega)]
      omega
    let h₁ : KmemHeap :=
      { h with links := listDelInit h.links a, availBytes := freeBytes pre, last := a }
    have L₁ : Layout gap h₁ (pre ++ [⟨a, s, .taken⟩]) (fl.erase a) :=
      L.take rfl rfl rfl (listDelInit_ring L.ring L.mem_of_free)
    have L₂ := L₁.grow (e := h.brk + (n - s)) (by have := L.brk.1; omega)
      (Nat.le_add_right _ _) hend
    obtain ⟨hptr, L₃, hlast₃, havail₃, hinit, hbytes₃⟩ := L₂.success
    have hexpand : kmallocExpand h allow n = kmallocSuccess
        (KmemHeap.set { h₁ with brk := h.brk + (n - s) } a
          { h₁.hdr a with size := h.brk + (n - s) - a - 32 }) a := by
      simp only [kmallocExpand, hlast, hsa, hinc, hsbrk, if_neg herr, havail, hnew]
      rfl
    rw [hexpand]
    refine ⟨_, Prod.ext rfl hptr, I.allocates [] L₃ (Or.inl rfl) ?_ ?_ (by omega) hinit
      (fun x hx => ?_)⟩
    · rw [hlast₃, List.append_nil, lastAddr_concat]
      rfl
    · exact havail₃.trans (Nat.add_zero _).symm
    · have hout := L.live_outside hx (d := ⟨a, s, .free⟩) (by simp)
      rw [hbytes₃ x hout]
      exact if_neg hout
  · left
    simp only [kmallocExpand, hlast, hsa, hinc, sbrk_refused (n := n - s) (by omega) hok, if_true]

/-- The stores that link a fresh chunk. -/
theorem kmallocLink_eq {k l : Nat} (hlast : h.last = l) (hne : l ≠ k)
    (hsize : wsub (wsub h.brk k) kmemHeader = n) (hdata : wadd k kmemHeader = k + 32) :
    ((kmallocLink h k).hdr k = { h.hdr k with data := k + 32, size := n, prev := l, next := 0 } ∧
      (kmallocLink h k).hdr l = { h.hdr l with next := k } ∧
      ∀ x, x ≠ k → x ≠ l → (kmallocLink h k).hdr x = h.hdr x) ∧
    ∀ x, ¬ (k ≤ x ∧ x < k + kmemHeader) → ¬ (l ≤ x ∧ x < l + kmemHeader) →
      (kmallocLink h k).bytes x = h.bytes x := by
  refine ⟨⟨?_, ?_, fun x h1 h2 => ?_⟩, fun x h1 h2 => ?_⟩
  · simp [kmallocLink, KmemHeap.set, hlast, hne, hne.symm, hsize, hdata]
  · simp [kmallocLink, KmemHeap.set, hlast, hne, hne.symm]
  · simp [kmallocLink, KmemHeap.set, hlast, hne, hne.symm, h1, h2]
  · simp [kmallocLink, KmemHeap.set, hlast, hne, hne.symm, if_neg h1, if_neg h2]

/-- **A fresh chunk** behind the last one. -/
theorem HeapInv.fresh (I : HeapInv gap h (pre ++ [c]) fl) (hb : Bounded allow)
    (hn : 8 ∣ n) (hlt : n < 2 ^ 31) (hpos : 32 < n) (hsize : size + 32 ≤ n) :
    kmallocFresh h allow n = ({ h with allocFail := 1 }, 0) ∨
    ∃ h', kmallocFresh h allow n = (h', h.brk + 32) ∧ Allocates gap h h' (pre ++ [c]) h.brk size := by
  have L := I.toLayout
  have hlast : h.last = c.addr := I.last.trans lastAddr_concat
  by_cases hok : allow h.brk n = true
  · right
    obtain ⟨hsbrk, hend, herr⟩ := L.sbrk_granted hb (by omega) hn hlt hok
    have hcb : c.addr + 32 + c.size ≤ h.brk := (L.bounds (c := c) (by simp)).2
    have hpre : ∀ d ∈ pre, d.addr + 32 + d.size ≤ c.addr := L.sorted.1
    have hend' := hend
    unfold vmallocEnd at hend'
    have hnew : wsub (wsub (h.brk + n) h.brk) kmemHeader = n - 32 := by
      rw [wsub_of_le (a := h.brk + n) (by omega) (by omega), kmemHeader,
        wsub_of_le (by omega) (by omega)]
      omega
    have hdata : wadd h.brk kmemHeader = h.brk + 32 := by
      unfold kmemHeader
      exact wadd_of_lt (by omega)
    let h₁ : KmemHeap := { h with brk := h.brk + n }
    obtain ⟨⟨hself, hprev, hother⟩, hbytes⟩ := kmallocLink_eq (h := h₁) (k := h.brk) (n := n - 32)
      hlast (by omega) hnew hdata
    let h₂ : KmemHeap := { kmallocLink h₁ h.brk with links := initListHead h.links h.brk }
    have hfresh : kmallocFresh h allow n =
        (h₂.set h.brk { h₂.hdr h.brk with free := 0, magic := kmemMagic }, h.brk + 32) := by
      refine Prod.ext ?_ ?_
      · simp only [kmallocFresh, hsbrk, if_neg herr]
        rfl
      · simp only [kmallocFresh, hsbrk, if_neg herr]
        have hptr : ((kmallocSuccess (kmallocLink h₁ h.brk) h.brk).1.hdr h.brk).data = h.brk + 32 := by
          simp only [kmallocSuccess, KmemHeap.set, Function.update_self, hself]
        exact hptr
    have hno : h.brk ∉ h.init :: fl := by
      intro hmem
      rcases List.mem_cons.mp hmem with he | hmem
      · have : h.init + 32 + 0 ≤ h.brk := (L.bounds L.init_mem).2
        omega
      · obtain ⟨d, hd, hda, -⟩ := (L.listed _).mp hmem
        have := (L.bounds hd).2
        omega
    have L' : Layout gap (h₂.set h.brk { h₂.hdr h.brk with free := 0, magic := kmemMagic })
        (pre ++ [c] ++ [⟨h.brk, n - 32, .live⟩]) fl := by
      refine L.extend (u := .live) (by omega) (by decide) (by decide) (by omega) rfl ?_ ?_ ?_ ?_
        (fun d hd => ?_)
      · show h.brk + n = _
        omega
      · refine L.ring.congr (fun x hx => initListHead_frame _ ?_)
        rintro rfl
        exact hno hx
      · have hk : h₂.hdr h.brk = { h.hdr h.brk with
            data := h.brk + 32, size := n - 32, prev := c.addr, next := 0 } := hself
        simp only [KmemHeap.set, Function.update_self, hk]
        rfl
      · exact (Function.update_of_ne (by omega) _ _).trans hprev
      · have := hpre d hd
        exact (Function.update_of_ne (by omega) _ _).trans (hother _ (by omega) (by omega))
    refine ⟨_, hfresh, _, fl, n - 32, ⟨L', ?_, ?_, fun d hd => ?_, ?_⟩, ?_, by omega, rfl,
      fun x hx => ?_⟩
    · rw [lastAddr_concat]
      rfl
    · rw [freeBytes_append]
      exact I.avail
    · rcases List.mem_append.mp hd with hd | hd
      · exact I.settled d hd
      · rw [List.mem_singleton] at hd
        rw [hd]
        exact Or.inr (Or.inl rfl)
    · refine isChain_mid.mpr ⟨I.coalesced, List.isChain_nil, ?_, ?_⟩
      · exact fun _ _ => apart_of_right (by simp)
      · exact fun _ _ => apart_of_left (by simp)
    · rw [liveOf_append, liveOf_cons_live rfl, liveOf_nil]
      exact List.perm_append_comm
    · have hout := L.live_outside hx (d := c) (by simp)
      have hin : x < h.brk := by
        obtain ⟨d, hd, -, -, hx'⟩ := hx
        exact hx'.trans_le (L.bounds hd).2
      exact (if_neg (by omega)).trans (hbytes x (by omega) hout)
  · left
    simp only [kmallocFresh, sbrk_refused (n := n) (by omega) hok, if_true]

/-! ## 5. `kmalloc` -/

/-- By how much the break has to be moved for a chunk of `len` bytes, where no free chunk is large
enough. -/
def kmallocLack (h : KmemHeap) (len : Nat) : Nat :=
  if (h.hdr h.last).free = kmemFreeMagic then len - (h.hdr h.last).size else len

/-- Neither does the length of the chunk wrap, nor is the increment a negative number. -/
def SizeFits (h : KmemHeap) (size : Nat) : Prop :=
  size + 39 < 2 ^ 32 ∧ kmallocLack h (wordAlign (wadd size kmemHeader)) < 2 ^ 31

/-- The length of a chunk for a size that does not wrap. -/
theorem wordAlign_size (hle : size + 39 < 2 ^ 32) :
    8 ∣ wordAlign (wadd size kmemHeader) ∧ size + 32 ≤ wordAlign (wadd size kmemHeader) ∧
      wordAlign (wadd size kmemHeader) < 2 ^ 32 := by
  have hadd : wadd size kmemHeader = size + 32 := by
    unfold kmemHeader
    exact wadd_of_lt (by omega)
  have hspec := walign_spec (x := size + 32) (a := 8) (by norm_num) (by omega)
  rw [hadd, wordAlign]
  omega

/-- **`kmalloc`** fails and leaves the heap as it is, or there is a new block. -/
theorem HeapInv.kmalloc (I : HeapInv gap h cs fl) (hb : Bounded allow) (hpos : 0 < size)
    (hfits : SizeFits h size) :
    kmalloc h allow size = some ({ h with allocFail := 1 }, 0) ∨
    ∃ h' k, kmalloc h allow size = some (h', k + 32) ∧ Allocates gap h h' cs k size := by
  obtain ⟨hn, hsize, hlt⟩ := wordAlign_size hfits.1
  have hlack := hfits.2
  have hk : ∀ r, kmemFindFreeChunk h (wordAlign (wadd size kmemHeader)) = some r →
      FlightOs.kmalloc h allow size =
        if r.2 ≠ 0 then some (kmallocReuse r.1 r.2 (wordAlign (wadd size kmemHeader)))
        else if (r.1.hdr r.1.last).free = kmemFreeMagic then
          some (kmallocExpand r.1 allow (wordAlign (wadd size kmemHeader)))
        else some (kmallocFresh r.1 allow (wordAlign (wadd size kmemHeader))) := by
    intro r hr
    rw [FlightOs.kmalloc, if_neg hpos.ne']
    simp only [hr]
  generalize wordAlign (wadd size kmemHeader) = n at *
  rcases I.findFreeChunk n with ⟨hfind, hsmall⟩ | ⟨a, ha, ha0, hfit, hfind⟩
  · rw [hk _ hfind]
    simp only [ne_eq, not_true, if_false]
    obtain ⟨pre, c, rfl⟩ : ∃ pre c, cs = pre ++ [c] := by
      obtain ⟨rest, heq, -⟩ := I.root
      rcases List.eq_nil_or_concat cs with hnil | ⟨pre, c, hcs⟩
      · rw [hnil] at heq
        cases heq
      · exact ⟨pre, c, hcs.trans List.concat_eq_append⟩
    have hlast : h.last = c.addr := I.last.trans lastAddr_concat
    have hfree : (h.hdr h.last).free = if c.use = .free ∨ c.use = .taken then kmemFreeMagic else 0 := by
      rw [hlast, I.header_eq]
      rfl
    by_cases hc : c.use = .free
    · rw [hfree, if_pos (Or.inl hc), if_pos rfl]
      obtain ⟨a, s, u⟩ := c
      obtain rfl : u = .free := hc
      have hs : s < n := by
        have := hsmall a I.mem_of_free
        rwa [I.header_eq (c := ⟨a, s, .free⟩)] at this
      have hsa : (h.hdr h.last).size = s := by
        rw [hlast, I.header_eq (c := ⟨a, s, .free⟩)]
        rfl
      rw [kmallocLack, hfree, if_pos (if_pos (Or.inl rfl)), hsa] at hlack
      rcases I.expand hb hn hlt hlack hs (by omega : size ≤ n) with he | ⟨h', he, hal⟩
      · exact Or.inl (congrArg some he)
      · exact Or.inr ⟨h', a, congrArg some he, hal⟩
    · have hnot : c.use ≠ .taken := by
        rcases I.settled c (by simp) with hu | hu | hu <;> rw [hu] <;> decide
      have hfree' : (h.hdr h.last).free ≠ kmemFreeMagic := by
        rw [hfree, if_neg (fun e => e.elim hc hnot)]
        decide
      rw [if_neg hfree']
      rw [kmallocLack, if_neg hfree'] at hlack
      rcases I.fresh hb hn hlack (by omega) hsize with he | ⟨h', he, hal⟩
      · exact Or.inl (congrArg some he)
      · exact Or.inr ⟨h', h.brk, congrArg some he, hal⟩
  · obtain ⟨pre, post, hcs⟩ := I.split_at_free ha
    generalize (h.hdr a).size = s at hfit hcs
    subst hcs
    obtain ⟨h', hre, hal⟩ := I.reuse hn hfit (by omega : size ≤ n)
    refine Or.inr ⟨h', a, ?_, hal⟩
    rw [hk _ hfind, if_pos ha0, hre]

end Alloc

end FlightOs
