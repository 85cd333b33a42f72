/-
# Changes of a heap

What the stores of the allocator do to the list of chunks.  `Layout.edit` is the common part:
some chunks are exchanged for others that fill the same addresses, and everything before and
behind them stays.
-/
import FlightOs.Kmem.Layout

namespace FlightOs

/-! ## 1. Free chunks -/

/-- A free chunk at an address. -/
def FreeAt (cs : List Chunk) (a : Nat) : Prop := ∃ c ∈ cs, c.addr = a ∧ c.use = .free

section FreeAt

variable {cs xs ys : List Chunk} {c : Chunk} {a : Nat}

@[simp] theorem freeAt_nil : ¬ FreeAt [] a := fun ⟨_, h, _⟩ => List.not_mem_nil h

@[simp] theorem freeAt_cons : FreeAt (c :: cs) a ↔ (c.addr = a ∧ c.use = .free) ∨ FreeAt cs a := by
  simp [FreeAt]

@[simp] theorem freeAt_append : FreeAt (xs ++ ys) a ↔ FreeAt xs a ∨ FreeAt ys a := by
  simp only [FreeAt, List.mem_append, or_and_right, exists_or]

end FreeAt

theorem wordAlign_of_dvd {x : Nat} (h : 8 ∣ x) (hx : x + 8 ≤ 2 ^ 32) : wordAlign x = x :=
  walign_of_dvd (by norm_num) (by omega) h

/-- The fields of the rest of the heap. -/
theorem kmemMerge_rest (h : KmemHeap) (k : Nat) :
    (kmemMerge h k).links = h.links ∧ (kmemMerge h k).init = h.init ∧
      (kmemMerge h k).brk = h.brk ∧ (kmemMerge h k).last = h.last ∧
      (kmemMerge h k).availBytes = h.availBytes ∧ (kmemMerge h k).allocFail = h.allocFail := by
  unfold kmemMerge
  extract_lets h₁ h₂
  split <;> exact ⟨rfl, rfl, rfl, rfl, rfl, rfl⟩

namespace Layout

variable {gap : Prop} {h h' : KmemHeap} {cs pre post xs ys : List Chunk} {fl fl' : List Nat}
  {c d : Chunk} {a b s t n x : Nat} {u v : ChunkUse}

/-! ## 2. Exchanging chunks -/

variable (ys) in
theorem edit (L : Layout gap h (pre ++ (xs ++ post)) fl) (hxs : ∀ c ∈ xs, c.use ≠ .root)
    (hne : xs ≠ []) (hys : ∀ c ∈ ys, c.use ≠ .root)
    (hfirst : firstAddr Chunk.addr (ys ++ post) 0 = firstAddr Chunk.addr (xs ++ post) 0)
    (hinit : h'.init = h.init) (hbrk : h'.brk = h.brk)
    (hpre : ∀ d ∈ pre, h'.hdr d.addr = h.hdr d.addr)
    (hchain : Chained Chunk.addr Chunk.header h'.hdr (lastAddr Chunk.addr 0 pre) (ys ++ post) 0)
    (htile : ∀ m m', Tiled gap Chunk.addr Chunk.stop m xs m' →
      Tiled gap Chunk.addr Chunk.stop m ys m')
    (halign : ∀ c ∈ ys, 8 ∣ c.addr ∧ 8 ∣ c.size) (hring : Ring h'.links h.init fl')
    (hlisted : ∀ a, a ∈ fl' ↔ FreeAt (pre ++ (ys ++ post)) a) :
    Layout gap h' (pre ++ (ys ++ post)) fl' := by
  obtain ⟨m, ht1, ht2⟩ := tiled_append.mp L.tiled
  obtain ⟨m', ht3, ht4⟩ := tiled_append.mp ht2
  refine ⟨?_, ?_, fun c hc => ?_, ?_, ?_, ?_, ?_, hlisted⟩
  · rw [chained_append, hfirst]
    exact ⟨(chained_append.mp L.chain).1.congr hpre, hchain⟩
  · rw [hinit, hbrk]
    exact tiled_append.mpr ⟨m, ht1, tiled_append.mpr ⟨m', htile m m' ht3, ht4⟩⟩
  · rcases List.mem_append.mp hc with hc | hc
    · exact L.aligned c (List.mem_append_left _ hc)
    · rcases List.mem_append.mp hc with hc | hc
      · exact halign c hc
      · exact L.aligned c (List.mem_append_right _ (List.mem_append_right _ hc))
  · rw [hbrk]
    exact L.brk
  · rw [hinit]
    exact L.low
  · rw [hinit]
    exact L.root.replace ys hne hxs hys
  · rw [hinit]
    exact hring

/-- A store that touches neither headers nor list nor break. -/
theorem congr (L : Layout gap h cs fl) (hinit : h'.init = h.init) (hbrk : h'.brk = h.brk)
    (hhdr : ∀ c ∈ cs, h'.hdr c.addr = h.hdr c.addr) (hlinks : h'.links = h.links) :
    Layout gap h' cs fl := by
  refine ⟨L.chain.congr hhdr, ?_, L.aligned, hbrk ▸ L.brk, hinit ▸ L.low, hinit ▸ L.root, ?_,
    L.listed⟩
  · rw [hinit, hbrk]
    exact L.tiled
  · rw [hinit, hlinks]
    exact L.ring

/-- The chunk at `c.addr` is used for something else. -/
theorem restamp (L : Layout gap h (pre ++ c :: post) fl) (hc : c.use ≠ .root) (hu : u ≠ .root)
    (hinit : h'.init = h.init) (hbrk : h'.brk = h.brk)
    (hself : h'.hdr c.addr =
      Chunk.header ⟨c.addr, c.size, u⟩ (h.hdr c.addr).prev (h.hdr c.addr).next)
    (hother : ∀ x, x ≠ c.addr → h'.hdr x = h.hdr x) (hring : Ring h'.links h.init fl')
    (hlisted : ∀ a, a ∈ fl' ↔ if a = c.addr then u = .free else a ∈ fl) :
    Layout gap h' (pre ++ ⟨c.addr, c.size, u⟩ :: post) fl' := by
  obtain ⟨hlt, hgt⟩ := L.sorted
  have hL : Layout gap h (pre ++ ([c] ++ post)) fl := L
  refine hL.edit [⟨c.addr, c.size, u⟩] (by simpa using hc) (List.cons_ne_nil _ _)
    (by simpa using hu) rfl hinit hbrk (fun d hd => hother _ ?_) ⟨?_, ?_⟩ (fun m m' ht => ht) ?_
    hring (fun a => ?_)
  · have := hlt d hd
    omega
  · rw [hself, L.header_eq]
    rfl
  · refine (chained_mid.mp L.chain).2.2.congr (fun d hd => hother _ ?_)
    have := hgt d hd
    omega
  · intro c' hc'
    rw [List.mem_singleton] at hc'
    rw [hc']
    exact L.aligned c (List.mem_append_right _ List.mem_cons_self)
  · have hpre : FreeAt pre a → a ≠ c.addr := by
      rintro ⟨d, hd, rfl, -⟩
      have := hlt d hd
      omega
    have hpost : FreeAt post a → a ≠ c.addr := by
      rintro ⟨d, hd, rfl, -⟩
      have := hgt d hd
      omega
    have hold : a ∈ fl ↔ FreeAt (pre ++ c :: post) a := L.listed a
    simp only [freeAt_append, freeAt_cons] at hold
    rw [hlisted, hold]
    simp only [List.cons_append, List.nil_append, freeAt_append, freeAt_cons]
    split
    next he =>
      subst he
      tauto
    next hne =>
      have := Ne.symm hne
      tauto

/-! ## 3. The free list -/

theorem notMem_init (L : Layout gap h cs fl) : h.init ∉ fl := L.ring.notMem

/-- A chunk that is taken off the list. -/
theorem take (L : Layout gap h (pre ++ ⟨a, s, .free⟩ :: post) fl) (hinit : h'.init = h.init)
    (hbrk : h'.brk = h.brk) (hhdr : h'.hdr = h.hdr) (hring : Ring h'.links h.init (fl.erase a)) :
    Layout gap h' (pre ++ ⟨a, s, .taken⟩ :: post) (fl.erase a) := by
  have hnd : fl.Nodup := (List.nodup_cons.mp L.ring.nodup).2
  refine L.restamp (u := .taken) (by simp) (by decide) hinit hbrk ?_ (fun x _ => by rw [hhdr])
    hring (fun x => ?_)
  · rw [hhdr, L.header_eq]
    rfl
  · rw [hnd.mem_erase_iff]
    split
    next he => simp [he]
    next hne => simp [hne]

theorem mem_of_free (L : Layout gap h (pre ++ ⟨a, s, .free⟩ :: post) fl) : a ∈ fl :=
  (L.listed a).mpr ⟨_, List.mem_append_right _ List.mem_cons_self, rfl, rfl⟩

theorem notMem_of_use (L : Layout gap h (pre ++ ⟨a, s, u⟩ :: post) fl) (hu : u ≠ .free) :
    a ∉ h.init :: fl ∨ u = .root := by
  by_cases hr : u = .root
  · exact Or.inr hr
  · left
    intro hmem
    have hc : (⟨a, s, u⟩ : Chunk) ∈ pre ++ ⟨a, s, u⟩ :: post :=
      List.mem_append_right _ List.mem_cons_self
    rcases List.mem_cons.mp hmem with rfl | hmem
    · exact hr (congrArg Chunk.use (L.eq_of_addr hc L.init_mem rfl))
    · obtain ⟨d, hd, hda, hdu⟩ := (L.listed a).mp hmem
      have hcd := L.eq_of_addr hc hd hda.symm
      exact hu ((congrArg Chunk.use hcd).trans hdu)

theorem takeDelInit (L : Layout gap h (pre ++ ⟨a, s, .free⟩ :: post) fl) :
    Layout gap { h with links := listDelInit h.links a } (pre ++ ⟨a, s, .taken⟩ :: post)
      (fl.erase a) :=
  L.take rfl rfl rfl (listDelInit_ring L.ring L.mem_of_free)

/-- The node of a chunk that is on no list is set up anew. -/
theorem initNode (L : Layout gap h (pre ++ ⟨a, s, u⟩ :: post) fl) (hu : u ≠ .free)
    (hr : u ≠ .root) :
    Layout gap { h with links := initListHead h.links a } (pre ++ ⟨a, s, u⟩ :: post) fl := by
  have hno := (L.notMem_of_use hu).resolve_right hr
  refine ⟨L.chain, L.tiled, L.aligned, L.brk, L.low, L.root, ?_, L.listed⟩
  refine L.ring.congr (fun x hx => initListHead_frame _ ?_)
  rintro rfl
  exact hno hx

/-- A chunk that is put on the list. -/
theorem give (L : Layout gap h (pre ++ ⟨a, s, .taken⟩ :: post) fl) :
    Layout gap { h with links := listAddTail h.links a h.init } (pre ++ ⟨a, s, .free⟩ :: post)
      (fl ++ [a]) := by
  have hno := (L.notMem_of_use (by decide)).resolve_right (by decide)
  refine L.restamp (u := .free) (by simp) (by decide) rfl rfl ?_ (fun _ _ => rfl)
    (listAddTail_ring L.ring hno) (fun x => ?_)
  · rw [L.header_eq]
    rfl
  · split
    next he => simp [he]
    next hne => simp [hne]

/-! ## 4. Marks -/

/-- What a chunk off the list is used for is changed by two of its fields. -/
theorem mark (L : Layout gap h (pre ++ ⟨a, s, u⟩ :: post) fl) (hu : u ≠ .free) (hr : u ≠ .root)
    (hv : v ≠ .free) (hr' : v ≠ .root) {w : Kmem}
    (hw : w = Chunk.header ⟨a, s, v⟩ (h.hdr a).prev (h.hdr a).next) :
    Layout gap (h.set a w) (pre ++ ⟨a, s, v⟩ :: post) fl := by
  have hno := (L.notMem_of_use hu).resolve_right hr
  refine L.restamp (u := v) hr hr' rfl rfl ?_ (fun x hx => Function.update_of_ne hx _ _) L.ring
    (fun x => ?_)
  · rw [← hw]
    exact Function.update_self _ _ _
  · split
    next he =>
      subst he
      exact ⟨fun hx => absurd (List.mem_cons_of_mem _ hx) hno, fun hx => absurd hx hv⟩
    next => exact Iff.rfl

/-- `k->free = FREE_MAGIC; k->magic = 0` -/
theorem markFree (L : Layout gap h (pre ++ ⟨a, s, .live⟩ :: post) fl) :
    Layout gap (h.set a { h.hdr a with free := kmemFreeMagic, magic := 0 })
      (pre ++ ⟨a, s, .taken⟩ :: post) fl := by
  refine L.mark (by decide) (by decide) (by decide) (by decide) ?_
  rw [L.header_eq]
  rfl

/-- `k->free = 0; k->magic = MAGIC` -/
theorem markLive (L : Layout gap h (pre ++ ⟨a, s, .taken⟩ :: post) fl) :
    Layout gap (h.set a { h.hdr a with free := 0, magic := kmemMagic })
      (pre ++ ⟨a, s, .live⟩ :: post) fl := by
  refine L.mark (by decide) (by decide) (by decide) (by decide) ?_
  rw [L.header_eq]
  rfl

/-- `k->free = 0`, for a chunk that goes into its neighbour. -/
theorem markDead (L : Layout gap h (pre ++ ⟨a, s, .taken⟩ :: post) fl) :
    Layout gap (h.set a { h.hdr a with free := 0 }) (pre ++ ⟨a, s, .dead⟩ :: post) fl := by
  refine L.mark (by decide) (by decide) (by decide) (by decide) ?_
  rw [L.header_eq]
  rfl

/-! ## 5. Merging -/

/-- The headers after a merge: those of the chunk and of the one behind its neighbour change. -/
theorem merge_hdr (L : Layout gap h (pre ++ ⟨a, s, u⟩ :: ⟨b, t, v⟩ :: post) fl) :
    (kmemMerge h a).hdr a =
      { h.hdr a with size := s + 32 + t, next := firstAddr Chunk.addr post 0 } ∧
    ∀ x, x ≠ a → (kmemMerge h a).hdr x =
      if x = firstAddr Chunk.addr post 0 ∧ x ≠ 0 then { h.hdr x with prev := a } else h.hdr x := by
  have ha := L.header_eq
  have hab : b ≠ a := by
    have hlt : a + 32 + s ≤ b := L.sorted.2 ⟨b, t, v⟩ List.mem_cons_self
    omega
  have L' : Layout gap h ((pre ++ [⟨a, s, u⟩]) ++ ⟨b, t, v⟩ :: post) fl := by simpa using L
  have hb := L'.header_eq
  have hpa : firstAddr Chunk.addr post 0 ≠ a := by
    cases post with
    | nil =>
      have := (L.range (List.mem_append_right _ List.mem_cons_self)).1
      exact this.ne
    | cons d post =>
      have := L.sorted.2 d (List.mem_cons_of_mem _ List.mem_cons_self)
      simp only [firstAddr_cons] at this ⊢
      omega
  have hsize : wadd (wadd s t) kmemHeader = s + 32 + t := by
    have h1 := (L.range (c := ⟨a, s, u⟩) (List.mem_append_right _ List.mem_cons_self)).2
    have h2 := (L'.range (c := ⟨b, t, v⟩) (List.mem_append_right _ List.mem_cons_self)).2
    simp only at h1 h2
    rw [wadd_of_lt (a := s) (by omega), kmemHeader, wadd_of_lt (by omega)]
    omega
  have hsa : (h.hdr a).size = s := by rw [ha]; rfl
  have hna : (h.hdr a).next = b := by rw [ha]; rfl
  have hsb : (h.hdr b).size = t := by rw [hb]; rfl
  have hnb : (h.hdr b).next = firstAddr Chunk.addr post 0 := by rw [hb]; rfl
  by_cases h0 : firstAddr Chunk.addr post 0 = 0
  · have hm : (kmemMerge h a).hdr = Function.update h.hdr a
        { h.hdr a with size := s + 32 + t, next := firstAddr Chunk.addr post 0 } := by
      simp [kmemMerge, KmemHeap.set, hna, hab, hsa, hsb, hnb, hsize, h0]
    rw [hm, h0]
    refine ⟨Function.update_self _ _ _, fun x hx => ?_⟩
    rw [Function.update_of_ne hx, if_neg (fun e => e.2 e.1)]
  · have hm : (kmemMerge h a).hdr = Function.update (Function.update h.hdr a
        { h.hdr a with size := s + 32 + t, next := firstAddr Chunk.addr post 0 })
        (firstAddr Chunk.addr post 0)
        { h.hdr (firstAddr Chunk.addr post 0) with prev := a } := by
      simp [kmemMerge, KmemHeap.set, hna, hab, hsa, hsb, hnb, hsize, h0, hpa]
    rw [hm]
    refine ⟨?_, fun x hx => ?_⟩
    · rw [Function.update_of_ne (Ne.symm hpa), Function.update_self]
    · by_cases hxf : x = firstAddr Chunk.addr post 0
      · rw [if_pos ⟨hxf, hxf ▸ h0⟩, hxf, Function.update_self]
      · rw [Function.update_of_ne hxf, Function.update_of_ne hx, if_neg (fun e => hxf e.1)]

/-- The chunks behind an edit: only the first one gets another `prev`. -/
theorem chain_behind (L : Layout gap h (pre ++ c :: post) fl) {q : Nat} {hdr' : Nat → Kmem}
    (hnew : ∀ d ∈ post, hdr' d.addr =
      if d.addr = firstAddr Chunk.addr post 0 ∧ d.addr ≠ 0 then { h.hdr d.addr with prev := q }
      else h.hdr d.addr) : Chained Chunk.addr Chunk.header hdr' q post 0 := by
  have hchain := (chained_mid.mp L.chain).2.2
  cases post with
  | nil => trivial
  | cons d post =>
    have L' : Layout gap h ((pre ++ [c]) ++ d :: post) fl := by simpa using L
    refine hchain.reprev ?_ (fun d' hd' => ?_)
    · have hpos := (L'.range (List.mem_append_right _ List.mem_cons_self)).1
      rw [hnew d List.mem_cons_self, if_pos ⟨rfl, hpos.ne'⟩, hchain.1]
      rfl
    · have := L'.sorted.2 d' hd'
      rw [hnew d' (List.mem_cons_of_mem _ hd'), if_neg]
      rintro ⟨he, -⟩
      simp only [firstAddr_cons] at he
      omega

/-- **`kmem_merge`**: the chunk takes over its neighbour. -/
theorem merge (L : Layout gap h (pre ++ ⟨a, s, u⟩ :: ⟨b, t, v⟩ :: post) fl) (hu : u ≠ .root)
    (hv : v ≠ .root) (hv' : v ≠ .free) :
    Layout gap (kmemMerge h a) (pre ++ ⟨a, s + 32 + t, u⟩ :: post) fl := by
  obtain ⟨hlinks, hinit, hbrk, -⟩ := kmemMerge_rest h a
  obtain ⟨hself, hother⟩ := L.merge_hdr
  have L' : Layout gap h ((pre ++ [⟨a, s, u⟩]) ++ ⟨b, t, v⟩ :: post) fl := by simpa using L
  have hltb : a + 32 + s ≤ b := L.sorted.2 ⟨b, t, v⟩ List.mem_cons_self
  have hpost : ∀ d ∈ post, a + 32 + s + 32 + t ≤ d.addr := by
    intro d hd
    have hle : b + 32 + t ≤ d.addr := L'.sorted.2 d hd
    omega
  have hL : Layout gap h (pre ++ ([⟨a, s, u⟩, ⟨b, t, v⟩] ++ post)) fl := L
  refine hL.edit [⟨a, s + 32 + t, u⟩] (by simp [hu, hv]) (List.cons_ne_nil _ _)
    (by simpa using hu) rfl hinit hbrk (fun d hd => ?_) ⟨?_, ?_⟩ (fun m m' ht => ?_) ?_
    (hlinks.symm ▸ L.ring) (fun x => ?_)
  · have hlt : d.addr + 32 + d.size ≤ a := L.sorted.1 d hd
    have hfirst : d.addr ≠ firstAddr Chunk.addr post 0 ∨ d.addr = 0 := by
      cases post with
      | nil => exact (Nat.eq_zero_or_pos d.addr).symm.imp (fun hp => hp.ne') id
      | cons e post =>
        have := hpost e List.mem_cons_self
        left
        simp only [firstAddr_cons]
        omega
    rw [hother _ (by omega), if_neg (fun e => hfirst.elim (absurd e.1) e.2)]
  · rw [hself, L.header_eq]
    rfl
  · refine L'.chain_behind (fun d hd => hother _ ?_)
    have := hpost d hd
    omega
  · obtain ⟨h1, h2, h3, h4, h5⟩ := ht
    refine ⟨h1, Chunk.addr_le_stop _, h5.meets ?_⟩
    unfold Chunk.stop at h3 ⊢
    simp only at h3 ⊢
    rcases h3 with h3 | ⟨hg, h3⟩
    · exact Or.inl (by omega)
    · exact Or.inr ⟨hg, by omega⟩
  · have h1 : 8 ∣ a ∧ 8 ∣ s := L.aligned ⟨a, s, u⟩ (by simp)
    have h2 : 8 ∣ b ∧ 8 ∣ t := L.aligned ⟨b, t, v⟩ (by simp)
    intro c hc
    rw [List.mem_singleton] at hc
    rw [hc]
    exact ⟨h1.1, by simp only; omega⟩
  · have hold : x ∈ fl ↔ FreeAt (pre ++ ⟨a, s, u⟩ :: ⟨b, t, v⟩ :: post) x := L.listed x
    rw [hold]
    simp [hv']

theorem merge_bytes (L : Layout gap h (pre ++ ⟨a, s, u⟩ :: ⟨b, t, v⟩ :: post) fl)
    (hx : LiveByte (pre ++ ⟨a, s, u⟩ :: ⟨b, t, v⟩ :: post) x) :
    (kmemMerge h a).bytes x = h.bytes x := by
  have ha := L.live_outside hx (d := ⟨a, s, u⟩) (by simp)
  have hnext : (h.hdr a).next = b := by
    rw [L.header_eq]
    rfl
  have hab : b ≠ a := by
    have hlt : a + 32 + s ≤ b := L.sorted.2 ⟨b, t, v⟩ List.mem_cons_self
    omega
  have L' : Layout gap h ((pre ++ [⟨a, s, u⟩]) ++ ⟨b, t, v⟩ :: post) fl := by simpa using L
  have hnb : (h.hdr b).next = firstAddr Chunk.addr post 0 := by
    rw [L'.header_eq]
    rfl
  by_cases h0 : firstAddr Chunk.addr post 0 = 0
  · simp only [kmemMerge, KmemHeap.set, hnext, Function.update_self, Function.update_of_ne hab, hnb,
      h0, ne_eq, not_true, if_false, if_neg ha]
  · have hF : ¬ (firstAddr Chunk.addr post 0 ≤ x ∧ x < firstAddr Chunk.addr post 0 + kmemHeader) := by
      cases post with
      | nil => exact absurd rfl h0
      | cons d post => exact L.live_outside hx (d := d) (by simp)
    simp only [kmemMerge, KmemHeap.set, hnext, Function.update_self, Function.update_of_ne hab, hnb,
      h0, ne_eq, not_false_iff, if_true, if_neg ha, if_neg hF]

end Layout

end FlightOs
