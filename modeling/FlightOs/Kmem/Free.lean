/-
# Freeing

What `kfree` does to a heap in order.  The chunk is taken out of use, takes in the chunk behind it
and goes into the one before it where these are free, and what has come of it is put on the list.
`Freeing` is the state in between: one chunk is free by its header, but not on the list yet.
-/
import FlightOs.Kmem.Alloc

namespace FlightOs

/-- The chunk `a` between `pre` and `post` is about to be put on the free list. -/
structure Freeing (gap : Prop) (h : KmemHeap) (pre post : List Chunk) (a s : Nat) (fl : List Nat) :
    Prop extends Layout gap h (pre ++ ⟨a, s, .taken⟩ :: post) fl where
  last : post ≠ [] → h.last = lastAddr Chunk.addr 0 post
  avail : h.availBytes = freeBytes pre + freeBytes post
  settled : ∀ c ∈ pre ++ post, c.use = .root ∨ c.use = .live ∨ c.use = .free
  before : pre.IsChain Apart
  behind : post.IsChain Apart

section Free

variable {gap : Prop} {h h' : KmemHeap} {cs pre post : List Chunk} {fl : List Nat}
  {c d : Chunk} {a s t n x size : Nat} {allow : Nat → Nat → Bool} {u : ChunkUse}

/-- The last address of a list that is not empty. -/
theorem lastAddr_of_ne (h : post ≠ []) (p q : Nat) :
    lastAddr Chunk.addr p post = lastAddr Chunk.addr q post := by
  cases post with
  | nil => exact absurd rfl h
  | cons c post => rfl

/-- The chunk is taken out of use. -/
theorem HeapInv.freeing (I : HeapInv gap h (pre ++ ⟨a, s, .live⟩ :: post) fl) :
    Freeing gap (h.set a { h.hdr a with free := kmemFreeMagic, magic := 0 }) pre post a s fl := by
  obtain ⟨h1, h2, -, -⟩ := isChain_mid.mp I.coalesced
  refine ⟨I.toLayout.markFree, fun hne => ?_, ?_, fun c hc => I.settled c ?_, h1, h2⟩
  · refine I.last.trans ?_
    rw [lastAddr_mid]
    exact lastAddr_of_ne hne _ _
  · refine I.avail.trans ?_
    simp [Chunk.freeSize]
  · rcases List.mem_append.mp hc with hc | hc
    · exact List.mem_append_left _ hc
    · exact List.mem_append_right _ (List.mem_cons_of_mem _ hc)

/-- The chunk that comes next is free by its header when it is on the list. -/
theorem Freeing.next_free (F : Freeing gap h pre (c :: post) a s fl) :
    ((h.hdr a).next ≠ 0 ∧ (h.hdr (h.hdr a).next).free ≠ 0) ↔ c.use = .free := by
  have L' : Layout gap h ((pre ++ [⟨a, s, .taken⟩]) ++ c :: post) fl := by simpa using F.toLayout
  have hnext : (h.hdr a).next = c.addr := by
    rw [F.header_eq]
    rfl
  have hfree : (h.hdr c.addr).free = if c.use = .free ∨ c.use = .taken then kmemFreeMagic else 0 := by
    rw [L'.header_eq]
    rfl
  have hpos := (L'.range (c := c) (by simp)).1
  rw [hnext, hfree]
  rcases F.settled c (by simp) with hu | hu | hu <;> rw [hu] <;> simp [kmemFreeMagic, hpos.ne']

/-- **The chunk behind is taken in**, where it is free. -/
theorem Freeing.next (F : Freeing gap h pre post a s fl) :
    ∃ t post' fl', Freeing gap (kfreeNext h a) pre post' a t fl' ∧
      (∀ y ∈ post'.head?, y.use ≠ .free) ∧ liveOf post' = liveOf post ∧
      (kfreeNext h a).init = h.init ∧ (kfreeNext h a).brk = h.brk ∧
      ∀ x, LiveByte (pre ++ post) x → (kfreeNext h a).bytes x = h.bytes x := by
  have hskip : (∀ y ∈ post.head?, y.use ≠ .free) →
      ¬ ((h.hdr a).next ≠ 0 ∧ (h.hdr (h.hdr a).next).free ≠ 0) →
      ∃ t post' fl', Freeing gap (kfreeNext h a) pre post' a t fl' ∧
        (∀ y ∈ post'.head?, y.use ≠ .free) ∧ liveOf post' = liveOf post ∧
        (kfreeNext h a).init = h.init ∧ (kfreeNext h a).brk = h.brk ∧
        ∀ x, LiveByte (pre ++ post) x → (kfreeNext h a).bytes x = h.bytes x := by
    intro hhead hno
    rw [kfreeNext, if_neg hno]
    exact ⟨s, post, fl, F, hhead, rfl, rfl, rfl, fun _ _ => rfl⟩
  cases post with
  | nil =>
    refine hskip (by simp) (fun e => e.1 ?_)
    rw [F.header_eq]
    rfl
  | cons c post =>
    by_cases hc : c.use = .free
    · obtain ⟨b, t, u⟩ := c
      obtain rfl : u = .free := hc
      have L' : Layout gap h ((pre ++ [⟨a, s, .taken⟩]) ++ ⟨b, t, .free⟩ :: post) fl := by
        simpa using F.toLayout
      have hnext : (h.hdr a).next = b := by
        rw [F.header_eq]
        rfl
      have hsize : (h.hdr b).size = t := by
        rw [L'.header_eq]
        rfl
      have hbytes := F.freeBytes_lt
      have hfree : freeBytes (pre ++ ⟨a, s, .taken⟩ :: ⟨b, t, .free⟩ :: post) =
          freeBytes pre + (t + freeBytes post) := by
        simp [Chunk.freeSize]
      have hav := F.avail
      have hpost : freeBytes (⟨b, t, .free⟩ :: post) = t + freeBytes post := by
        simp [Chunk.freeSize]
      have havail : wsub h.availBytes t = freeBytes pre + freeBytes post := by
        rw [hav, hpost, wsub_of_le (by omega) (by omega)]
        omega
      let h₁ : KmemHeap := { h with
        links := listDel h.links b
        availBytes := freeBytes pre + freeBytes post }
      have L₁ : Layout gap h₁ ((pre ++ [⟨a, s, .taken⟩]) ++ ⟨b, t, .taken⟩ :: post) (fl.erase b) :=
        L'.take rfl rfl rfl (listDel_ring L'.ring L'.mem_of_free)
      have L₂ : Layout gap h₁ (pre ++ ⟨a, s, .taken⟩ :: ⟨b, t, .taken⟩ :: post) (fl.erase b) := by
        simpa using L₁
      have L₃ := (L₂.merge (by decide) (by decide) (by decide)).initNode (by decide) (by decide)
      obtain ⟨-, hinit, hbrk, hlast, hav₁, -⟩ := kmemMerge_rest h₁ a
      have hkfree : kfreeNext h a =
          { kmemMerge h₁ a with links := initListHead (kmemMerge h₁ a).links a } := by
        rw [kfreeNext, if_pos (F.next_free.mpr rfl)]
        simp only [hnext, hsize, havail]
        rfl
      have hchain := List.isChain_cons.mp F.behind
      rw [hkfree]
      refine ⟨_, post, _, ⟨L₃, fun hne => ?_, hav₁, fun c hc => F.settled c ?_, F.before, hchain.2⟩,
        fun y hy e => hchain.1 y hy ⟨rfl, e⟩, (liveOf_cons_ne (by simp)).symm, hinit, hbrk,
        fun x hx => ?_⟩
      · refine hlast.trans ((F.last (List.cons_ne_nil _ _)).trans ?_)
        exact lastAddr_of_ne hne _ _
      · rcases List.mem_append.mp hc with hc | hc
        · exact List.mem_append_left _ hc
        · exact List.mem_append_right _ (List.mem_cons_of_mem _ hc)
      · refine L₂.merge_bytes ?_
        rw [liveByte_iff] at hx ⊢
        simpa using hx
    · exact hskip (by simpa using hc) (fun e => hc (F.next_free.mp e))

/-- The chunk before is free by its header when it is on the list. -/
theorem Freeing.prev_free (F : Freeing gap h (pre ++ [c]) post a s fl) :
    (h.hdr a).prev = c.addr ∧ ((h.hdr c.addr).free ≠ 0 ↔ c.use = .free) := by
  have L' : Layout gap h (pre ++ c :: (⟨a, s, .taken⟩ :: post)) fl := by simpa using F.toLayout
  have hprev : (h.hdr a).prev = c.addr := by
    rw [F.header_eq]
    exact lastAddr_concat
  have hfree : (h.hdr c.addr).free = if c.use = .free ∨ c.use = .taken then kmemFreeMagic else 0 := by
    rw [L'.header_eq]
    rfl
  refine ⟨hprev, ?_⟩
  rw [hfree]
  rcases F.settled c (by simp) with hu | hu | hu <;> rw [hu] <;> simp [kmemFreeMagic]

/-- **The chunk goes into the one before**, where that is free. -/
theorem Freeing.prev (F : Freeing gap h pre post a s fl) :
    ∃ k t pre' fl', (kfreePrev h a).2 = k ∧ Freeing gap (kfreePrev h a).1 pre' post k t fl' ∧
      (∀ y ∈ pre'.getLast?, y.use ≠ .free) ∧ liveOf pre' = liveOf pre ∧
      (kfreePrev h a).1.init = h.init ∧ (kfreePrev h a).1.brk = h.brk ∧
      ∀ x, LiveByte (pre ++ post) x → (kfreePrev h a).1.bytes x = h.bytes x := by
  obtain ⟨pre, c, rfl⟩ := F.root.before (by simp)
  obtain ⟨hprev, hiff⟩ := F.prev_free
  by_cases hc : c.use = .free
  · obtain ⟨b, r, u⟩ := c
    obtain rfl : u = .free := hc
    have L' : Layout gap h (pre ++ ⟨b, r, .free⟩ :: (⟨a, s, .taken⟩ :: post)) fl := by
      simpa using F.toLayout
    have hsize : (h.hdr b).size = r := by
      rw [L'.header_eq]
      rfl
    have hba : b ≠ a := by
      have hlt : b + 32 + r ≤ a := L'.sorted.2 ⟨a, s, .taken⟩ List.mem_cons_self
      omega
    have hbytes := L'.freeBytes_lt
    have hfree : freeBytes (pre ++ ⟨b, r, .free⟩ :: (⟨a, s, .taken⟩ :: post)) =
        freeBytes pre + (r + freeBytes post) := by
      simp [Chunk.freeSize]
    have hav := F.avail
    have hpre : freeBytes (pre ++ [⟨b, r, .free⟩]) = freeBytes pre + r := by
      simp [Chunk.freeSize]
    have havail : wsub h.availBytes r = freeBytes pre + freeBytes post := by
      rw [hav, hpre, wsub_of_le (by omega) (by omega)]
      omega
    let h₁ : KmemHeap := { h with links := listDel h.links b }
    have L₁ : Layout gap h₁ (pre ++ ⟨b, r, .taken⟩ :: (⟨a, s, .taken⟩ :: post)) (fl.erase b) :=
      L'.take rfl rfl rfl (listDel_ring L'.ring L'.mem_of_free)
    have L₁' : Layout gap h₁ ((pre ++ [⟨b, r, .taken⟩]) ++ ⟨a, s, .taken⟩ :: post) (fl.erase b) := by
      simpa using L₁
    let h₂ : KmemHeap := { h₁.set a { h₁.hdr a with free := 0 } with
      availBytes := freeBytes pre + freeBytes post }
    have L₂ : Layout gap h₂ ((pre ++ [⟨b, r, .taken⟩]) ++ ⟨a, s, .dead⟩ :: post) (fl.erase b) :=
      L₁'.markDead.congr rfl rfl (fun _ _ => rfl) rfl
    have L₃ : Layout gap h₂ (pre ++ ⟨b, r, .taken⟩ :: ⟨a, s, .dead⟩ :: post) (fl.erase b) := by
      simpa using L₂
    have L₄ := (L₃.merge (by decide) (by decide) (by decide)).initNode (by decide) (by decide)
    obtain ⟨-, hinit, hbrk, hlast, hav₂, -⟩ := kmemMerge_rest h₂ b
    have hkfree : kfreePrev h a =
        ({ kmemMerge h₂ b with links := initListHead (kmemMerge h₂ b).links b }, b) := by
      rw [kfreePrev, if_pos (by rw [hprev]; exact hiff.mpr rfl)]
      simp only [h₂, h₁, KmemHeap.set, Function.update_self, hprev, Function.update_of_ne hba, hsize,
        havail]
    have hchain := List.isChain_append.mp F.before
    rw [hkfree]
    refine ⟨b, _, pre, _, rfl, ⟨L₄, fun hne => hlast.trans (F.last hne), hav₂,
      fun c hc => F.settled c ?_, hchain.1, F.behind⟩, fun y hy e => ?_, ?_, hinit, hbrk,
      fun x hx => ?_⟩
    · rcases List.mem_append.mp hc with hc | hc
      · exact List.mem_append_left _ (List.mem_append_left _ hc)
      · exact List.mem_append_right _ hc
    · exact hchain.2.2 y hy _ rfl ⟨e, rfl⟩
    · rw [liveOf_append, liveOf_cons_ne (by simp), liveOf_nil, List.append_nil]
    · have hx' : LiveByte (pre ++ ⟨b, r, .taken⟩ :: ⟨a, s, .dead⟩ :: post) x := by
        rw [liveByte_iff] at hx ⊢
        simpa using hx
      refine (L₃.merge_bytes hx').trans ?_
      exact if_neg (L₃.live_outside hx' (d := ⟨a, s, .dead⟩) (by simp))
  · have hno : ¬ (h.hdr (h.hdr a).prev).free ≠ 0 := by
      rw [hprev]
      exact fun e => hc (hiff.mp e)
    rw [kfreePrev, if_neg hno]
    exact ⟨a, s, _, fl, rfl, F, by simpa using hc, rfl, rfl, rfl, fun _ _ => rfl⟩

/-- **The chunk is put on the list.** -/
theorem Freeing.list (F : Freeing gap h pre post a s fl) (hpre : ∀ y ∈ pre.getLast?, y.use ≠ .free)
    (hpost : ∀ y ∈ post.head?, y.use ≠ .free) :
    HeapInv gap (kfreeList h a) (pre ++ ⟨a, s, .free⟩ :: post) (fl ++ [a]) := by
  have hnext : (h.hdr a).next = firstAddr Chunk.addr post 0 := by
    rw [F.header_eq]
    rfl
  have hsize : (h.hdr a).size = s := by
    rw [F.header_eq]
    rfl
  have hfirst : firstAddr Chunk.addr post 0 = 0 ↔ post = [] := by
    cases post with
    | nil => simp
    | cons d post =>
      have := (F.range (c := d) (by simp)).1
      simp [this.ne']
  have hrange : 0 < a ∧ a + 32 + s < 2 ^ 29 := F.range (c := ⟨a, s, .taken⟩) (by simp)
  have hbytes := F.toLayout.freeBytes_lt
  have hfree : freeBytes (pre ++ ⟨a, s, .taken⟩ :: post) = freeBytes pre + freeBytes post := by
    simp [Chunk.freeSize]
  have hav : wadd h.availBytes s = freeBytes pre + (s + freeBytes post) := by
    rw [F.avail, wadd_of_lt (by omega)]
    omega
  have hlist : kfreeList h a = { h with
      availBytes := freeBytes pre + (s + freeBytes post)
      last := if post = [] then a else h.last
      links := listAddTail h.links a h.init } := by
    simp only [kfreeList, hnext, hsize, hav, hfirst]
    split <;> rfl
  rw [hlist]
  refine ⟨F.toLayout.give.congr rfl rfl (fun _ _ => rfl) rfl, ?_, ?_, fun c hc => ?_, ?_⟩
  · rw [lastAddr_mid]
    by_cases hne : post = []
    · subst hne
      rfl
    · refine (if_neg hne).trans ((F.last hne).trans ?_)
      exact lastAddr_of_ne hne _ _
  · simp [Chunk.freeSize]
  · simp only [List.mem_append, List.mem_cons] at hc
    rcases hc with hc | rfl | hc
    · exact F.settled c (List.mem_append_left _ hc)
    · exact Or.inr (Or.inr rfl)
    · exact F.settled c (List.mem_append_right _ hc)
  · exact isChain_mid.mpr ⟨F.before, F.behind, fun y hy => apart_of_left (hpre y hy),
      fun y hy => apart_of_right (hpost y hy)⟩

end Free

end FlightOs
