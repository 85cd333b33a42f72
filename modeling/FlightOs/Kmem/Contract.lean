/-
# The kernel heap over whole runs

What the heap is to its callers and to whoever walks through its headers, in every state that a
run can reach as long as the sizes that are asked for fit:

* `kmem_sound`: the chunks tile the memory from the initial one up to the break, the free list has
  the free ones, no two of them are neighbours, and all others are blocks of callers, apart from
  one another and large enough;
* `kmem_counts`: the counter of available bytes is the sum of the sizes on the free list;
* `krealloc_iff`: when `krealloc` does what it is documented to do.

The first one needs a `kernel_sbrk` that grants what is given back to it; under one that does not,
there are gaps between the chunks, and all else stays true.
-/
import FlightOs.Kmem.Run

namespace FlightOs

/-! ## 1. The heap, as its headers have it -/

/-- The chunks of the heap at the addresses `ks` and the free list `fl`. -/
structure KmemWell (gap : Prop) (s : KmemState) (ks fl : List Nat) : Prop where
  chained : Chained id (fun _ p n => (p, n)) (fun k => ((s.heap.hdr k).prev, (s.heap.hdr k).next))
    0 ks 0
  tiled : Tiled gap id (fun k => k + 32 + (s.heap.hdr k).size) s.heap.init ks s.heap.brk
  first : ks.head? = some s.heap.init
  last : ks.getLast? = some s.heap.last
  ring : Ring s.heap.links s.heap.init fl
  listed : ∀ k, k ∈ fl ↔ k ∈ ks ∧ (s.heap.hdr k).free = kmemFreeMagic
  coalesced : ks.IsChain
    (fun j k => ¬ ((s.heap.hdr j).free = kmemFreeMagic ∧ (s.heap.hdr k).free = kmemFreeMagic))
  -- any other chunk is somebody's block
  blocks : ∀ p, s.IsLive p ↔
    ∃ k ∈ ks, k ≠ s.heap.init ∧ (s.heap.hdr k).free ≠ kmemFreeMagic ∧ p = k + 32
  holds : ∀ e ∈ s.live, 8 ∣ e.1 ∧ e.2 ≤ (s.heap.hdr (e.1 - 32)).size
  apart : s.live.Pairwise (fun e d => e.1 + (s.heap.hdr (e.1 - 32)).size ≤ d.1 ∨
    d.1 + (s.heap.hdr (d.1 - 32)).size ≤ e.1)

def KmemSound (gap : Prop) (s : KmemState) : Prop := ∃ ks fl, KmemWell gap s ks fl

/-- The counter agrees with the free list. -/
def KmemCounts (s : KmemState) : Prop :=
  ∃ fl, Ring s.heap.links s.heap.init fl ∧
    s.heap.availBytes = (fl.map (fun k => (s.heap.hdr k).size)).sum

section Sound

variable {gap : Prop} {s : KmemState} {h : KmemHeap} {cs : List Chunk} {fl ks : List Nat}
  {c : Chunk} {size p : Nat}

theorem Layout.record (L : Layout gap h cs fl) (hc : c ∈ cs) :
    ∃ p n, h.hdr c.addr = c.header p n := L.chain.record hc

theorem Layout.size_eq (L : Layout gap h cs fl) (hc : c ∈ cs) : (h.hdr c.addr).size = c.size := by
  obtain ⟨p, n, heq⟩ := L.record hc
  rw [heq]
  rfl

theorem HeapInv.free_iff (I : HeapInv gap h cs fl) (hc : c ∈ cs) :
    (h.hdr c.addr).free = kmemFreeMagic ↔ c.use = .free := by
  obtain ⟨p, n, heq⟩ := I.record hc
  have hfree : (h.hdr c.addr).free = if c.use = .free ∨ c.use = .taken then kmemFreeMagic else 0 := by
    rw [heq]
    rfl
  rw [hfree]
  rcases I.settled c hc with hu | hu | hu <;> rw [hu] <;> simp [kmemFreeMagic]

/-- Only the initial chunk is of its kind. -/
theorem Layout.root_iff (L : Layout gap h cs fl) (hc : c ∈ cs) : c.use = .root ↔ c.addr = h.init := by
  constructor
  · intro hu
    obtain ⟨rest, hcs, hrest⟩ := L.root
    rw [hcs] at hc
    rcases List.mem_cons.mp hc with rfl | hc
    · rfl
    · exact absurd hu (hrest c hc)
  · intro ha
    rw [L.eq_of_addr hc L.init_mem ha]

/-- **What the headers show of a heap in order.** -/
theorem KmemRun.sound (h : KmemRun gap s) : KmemSound gap s := by
  obtain ⟨cs, fl, I, hown⟩ := h
  have hsize : ∀ e ∈ s.live, ∃ c ∈ liveOf cs, e.1 = c.addr + 32 ∧ e.2 ≤ c.size ∧
      (s.heap.hdr (e.1 - 32)).size = c.size := by
    intro e he
    obtain ⟨c, hc, h1, h2⟩ := hown.chunk he
    refine ⟨c, hc, h1, h2, ?_⟩
    rw [h1, Nat.add_sub_cancel, I.size_eq (mem_liveOf.mp hc).1]
  refine ⟨cs.map Chunk.addr, fl, ?_, ?_, ?_, ?_, I.ring, fun k => ?_, ?_, fun p => ?_, fun e he => ?_, ?_⟩
  · exact I.chain.map (f := fun w : Kmem => (w.prev, w.next)) (m := fun _ p n => (p, n))
      (fun _ _ _ => rfl)
  · refine I.tiled.map (fun c hc => ?_)
    rw [I.size_eq hc]
    rfl
  · obtain ⟨rest, hcs, -⟩ := I.root
    rw [hcs]
    rfl
  · obtain ⟨pre, c, hcs, hlast, -⟩ := I.last_chunk
    rw [hcs, List.map_append, hlast]
    exact List.getLast?_concat
  · rw [I.listed]
    constructor
    · rintro ⟨c, hc, rfl, hu⟩
      exact ⟨List.mem_map_of_mem hc, (I.free_iff hc).mpr hu⟩
    · rintro ⟨hk, hfree⟩
      obtain ⟨c, hc, rfl⟩ := List.mem_map.mp hk
      exact ⟨c, hc, rfl, (I.free_iff hc).mp hfree⟩
  · refine (List.isChain_map _).mpr (I.coalesced.imp_of_mem_imp (fun c d hc hd hne hfree => hne ?_))
    exact ⟨(I.free_iff hc).mp hfree.1, (I.free_iff hd).mp hfree.2⟩
  · constructor
    · rintro ⟨e, he, rfl⟩
      obtain ⟨c, hc, hec, -⟩ := hown.chunk he
      obtain ⟨hcs, hu⟩ := mem_liveOf.mp hc
      refine ⟨c.addr, List.mem_map_of_mem hcs, fun ha => ?_, fun hf => ?_, hec⟩
      · rw [(I.root_iff hcs).mpr ha] at hu
        cases hu
      · rw [(I.free_iff hcs).mp hf] at hu
        cases hu
    · rintro ⟨k, hk, hroot, hfree, rfl⟩
      obtain ⟨c, hc, rfl⟩ := List.mem_map.mp hk
      have hu : c.use = .live := by
        rcases I.settled c hc with hu | hu | hu
        · exact absurd ((I.root_iff hc).mp hu) hroot
        · exact hu
        · exact absurd ((I.free_iff hc).mpr hu) hfree
      exact hown.block (mem_liveOf.mpr ⟨hc, hu⟩)
  · obtain ⟨c, hc, h1, h2, h3⟩ := hsize e he
    have halign := (I.aligned c (mem_liveOf.mp hc).1).1
    exact ⟨by omega, h3.symm ▸ h2⟩
  · obtain ⟨m, hm, hlive, -⟩ := hown
    have hnd : (m.map Prod.fst).Nodup := hm.nodup_iff.mpr I.liveOf_nodup
    rw [hlive, List.pairwise_map]
    refine (List.pairwise_map.mp hnd).imp_of_mem (fun {p q} hp hq hne => ?_)
    have hp' := (mem_liveOf.mp (hm.mem_iff.mp (List.mem_map_of_mem (f := Prod.fst) hp))).1
    have hq' := (mem_liveOf.mp (hm.mem_iff.mp (List.mem_map_of_mem (f := Prod.fst) hq))).1
    have hap := I.apart hp' hq' hne
    simp only [Nat.add_sub_cancel, I.size_eq hp', I.size_eq hq']
    omega

/-- A block ends below the break. -/
theorem KmemSound.le_brk (h : KmemSound gap s) {e : Nat × Nat} (he : e ∈ s.live) :
    e.1 + e.2 ≤ s.heap.brk := by
  obtain ⟨ks, fl, W⟩ := h
  obtain ⟨k, hk, -, -, hek⟩ := (W.blocks e.1).mp ⟨e, he, rfl⟩
  have hle : k + 32 + (s.heap.hdr k).size ≤ s.heap.brk := (W.tiled.bounds hk).2.2
  have hsize := (W.holds e he).2
  rw [hek, Nat.add_sub_cancel] at hsize
  omega

/-- The sizes on the free list add up to the free bytes. -/
theorem HeapInv.freeBytes_eq (I : HeapInv gap h cs fl) :
    freeBytes cs = (fl.map (fun k => (h.hdr k).size)).sum := by
  have hfl : fl.Perm ((cs.filter (fun c => c.use = .free)).map Chunk.addr) := by
    refine (List.perm_ext_iff_of_nodup (List.nodup_cons.mp I.ring.nodup).2 ?_).mpr (fun k => ?_)
    · refine List.Nodup.map_on (fun c hc d hd => ?_) (I.nodup.filter _)
      exact I.eq_of_addr (List.mem_of_mem_filter hc) (List.mem_of_mem_filter hd)
    · rw [I.listed]
      simp [and_assoc, and_comm]
  have hsum : ∀ xs : List Chunk, (∀ c ∈ xs, c ∈ cs) →
      freeBytes xs = (((xs.filter (fun c => c.use = .free)).map Chunk.addr).map
        (fun k => (h.hdr k).size)).sum := by
    intro xs hxs
    induction xs with
    | nil => rfl
    | cons c xs ih =>
      rw [freeBytes_cons, ih (fun d hd => hxs d (List.mem_cons_of_mem _ hd))]
      by_cases hu : c.use = .free
      · rw [List.filter_cons_of_pos (by simpa using hu), List.map_cons, List.map_cons, List.sum_cons,
          I.size_eq (hxs c List.mem_cons_self), Chunk.freeSize, if_pos hu]
      · rw [List.filter_cons_of_neg (by simpa using hu), Chunk.freeSize, if_neg hu, Nat.zero_add]
  rw [(hfl.map _).sum_nat]
  exact hsum cs (fun _ hc => hc)

theorem KmemRun.counts (h : KmemRun gap s) : KmemCounts s := by
  obtain ⟨cs, fl, I, -⟩ := h
  exact ⟨fl, I.ring, I.avail.trans I.freeBytes_eq⟩

end Sound

/-! ## 2. Tiles, lists and blocks -/

/-- What is given back is taken, and what is granted lies in range. -/
def SbrkGrants (allow : Nat → Nat → Bool) : Prop := Bounded allow ∧ Grants allow

/-- **The heap stays in order**, and every call returns, as long as the sizes fit. -/
theorem kmem_sound (cfg : KmemConfig) {s : KmemState}
    (h : (kmemSystem cfg SbrkGrants).Reachable KmemOk s) :
    KmemSound False s ∧ ∀ allow o, SbrkGrants allow → KmemOk s o →
      ∃ s', kmemCall cfg allow s o = some s' := by
  have hrun : KmemRun False s :=
    KmemRun.of_reachable (fun _ hA => hA.1) (Or.inr (fun _ hA => hA.2)) h
  refine ⟨hrun.sound, fun allow o hA ho => ?_⟩
  obtain ⟨s', heq, -⟩ := hrun.call cfg hA.1 (Or.inr hA.2) ho
  exact ⟨s', heq⟩

theorem kmem_sound_twoBlocks : ∃ s,
    kmemCalls kmemReleasing sbrkWithin (kmemStart sbrkWithin) [.kmalloc 8, .kmalloc 100] = some s ∧
      KmemSound False s := by
  obtain ⟨s, hs⟩ : ∃ s,
      kmemCalls kmemReleasing sbrkWithin (kmemStart sbrkWithin) [.kmalloc 8, .kmalloc 100] = some s :=
    Option.isSome_iff_exists.mp (by decide)
  have hA : SbrkGrants sbrkWithin := ⟨sbrkWithin_bounded, sbrkWithin_grants⟩
  have hok : ∀ s size, size ≤ 2 ^ 31 - 40 → KmemOk s (.kmalloc size) := fun _ _ hle =>
    ⟨trivial, sizeFits_of_le hle⟩
  have halong : AlongCalls kmemReleasing sbrkWithin KmemOk (kmemStart sbrkWithin) [.kmalloc 8, .kmalloc 100] :=
    ⟨hok _ _ (by decide), fun _ _ => ⟨hok _ _ (by decide), fun _ _ => trivial⟩⟩
  exact ⟨s, hs, (kmem_sound kmemReleasing
    (kmemCalls_reachable hA _ (kmemStart_reachable hA (by decide)) halong hs)).1⟩

/-- A size of `0xFFFFFFF0` makes a chunk of sixteen bytes. -/
theorem kmem_sound_wraps : ¬ ∀ s, (kmemSystem kmemReleasing SbrkGrants).Reachable KmemValid s →
    KmemSound False s := by
  intro hall
  have hrun : (kmemCalls kmemReleasing sbrkWithin (kmemStart sbrkWithin) [.kmalloc 0xFFFFFFF0]).map
      (fun s => (s.live, s.heap.brk)) = some ([(0x1000040, 0xFFFFFFF0)], 0x1000030) := by
    decide
  obtain ⟨s, hs, hobs⟩ := Option.map_eq_some_iff.mp hrun
  obtain ⟨hlive, hbrk⟩ := Prod.mk.inj hobs
  have hA : SbrkGrants sbrkWithin := ⟨sbrkWithin_bounded, sbrkWithin_grants⟩
  have halong : AlongCalls kmemReleasing sbrkWithin KmemValid (kmemStart sbrkWithin) [.kmalloc 0xFFFFFFF0] :=
    ⟨trivial, fun _ _ => trivial⟩
  have hsound := hall s (kmemCalls_reachable hA _ (kmemStart_reachable hA (by decide)) halong hs)
  have hle := hsound.le_brk (e := (0x1000040, 0xFFFFFFF0)) (by rw [hlive]; exact List.mem_cons_self)
  rw [hbrk] at hle
  exact absurd hle (by decide)

/-! ## 3. The counter -/

/-- **The counter of available bytes** is right, whatever `kernel_sbrk` refuses. -/
theorem kmem_counts (cfg : KmemConfig) {s : KmemState}
    (h : (kmemSystem cfg Bounded).Reachable KmemOk s) : KmemCounts s := by
  have hrun : KmemRun True s := KmemRun.of_reachable (fun _ hA => hA) (Or.inl trivial) h
  exact hrun.counts

theorem kmem_counts_afterFree : ∃ s,
    kmemCalls kmemKeeping sbrkWithin (kmemStart sbrkWithin) [.kmalloc 8, .kmalloc 8, .kfree 0x1000040] = some s ∧
      KmemCounts s := by
  obtain ⟨s, hs⟩ : ∃ s, kmemCalls kmemKeeping sbrkWithin (kmemStart sbrkWithin)
      [.kmalloc 8, .kmalloc 8, .kfree 0x1000040] = some s :=
    Option.isSome_iff_exists.mp (by decide)
  have hok : ∀ s, KmemOk s (.kmalloc 8) := fun _ => ⟨trivial, sizeFits_of_le (by decide)⟩
  have hlive : (kmemCalls kmemKeeping sbrkWithin (kmemStart sbrkWithin) [.kmalloc 8, .kmalloc 8]).map
      KmemState.live = some [(0x1000068, 8), (0x1000040, 8)] := by decide
  have halong : AlongCalls kmemKeeping sbrkWithin KmemOk (kmemStart sbrkWithin)
      [.kmalloc 8, .kmalloc 8, .kfree 0x1000040] := by
    refine ⟨hok _, fun s₁ h₁ => ⟨hok _, fun s₂ h₂ => ⟨⟨Or.inr ?_, trivial⟩, fun _ _ => trivial⟩⟩⟩
    rw [kmemCalls, h₁, Option.bind_some, kmemCalls, h₂] at hlive
    exact ⟨_, (Option.some.inj hlive).symm ▸ List.mem_cons_of_mem _ List.mem_cons_self, rfl⟩
  exact ⟨s, hs, kmem_counts kmemKeeping (kmemCalls_reachable sbrkWithin_bounded _
    (kmemStart_reachable sbrkWithin_bounded (by decide)) halong hs)⟩

/-- Sizes that wrap break the counter: the second block is put where the first one is. -/
theorem kmem_counts_wraps : ¬ ∀ s, (kmemSystem kmemKeeping Bounded).Reachable KmemValid s →
    KmemCounts s := by
  intro hall
  have hrun : (kmemCalls kmemKeeping sbrkWithin (kmemStart sbrkWithin)
      [.kmalloc 0xFFFFFFE0, .kmalloc 8, .kfree 0x1000040]).map (fun s => (s.heap.init,
        (s.heap.links 0x1000000).next, (s.heap.links 0x1000020).next,
        (s.heap.hdr 0x1000020).size, s.heap.availBytes)) =
      some (0x1000000, some 0x1000020, some 0x1000000, 128, 72) := by decide
  obtain ⟨s, hs, hobs⟩ := Option.map_eq_some_iff.mp hrun
  simp only [Prod.mk.injEq] at hobs
  obtain ⟨hinit, hnext, hback, hsize, havail⟩ := hobs
  have hlive : (kmemCalls kmemKeeping sbrkWithin (kmemStart sbrkWithin) [.kmalloc 0xFFFFFFE0, .kmalloc 8]).map
      KmemState.live = some [(0x1000040, 8), (0x1000040, 0xFFFFFFE0)] := by decide
  have halong : AlongCalls kmemKeeping sbrkWithin KmemValid (kmemStart sbrkWithin)
      [.kmalloc 0xFFFFFFE0, .kmalloc 8, .kfree 0x1000040] := by
    refine ⟨trivial, fun s₁ h₁ => ⟨trivial, fun s₂ h₂ => ⟨Or.inr ?_, fun _ _ => trivial⟩⟩⟩
    rw [kmemCalls, h₁, Option.bind_some, kmemCalls, h₂] at hlive
    exact ⟨_, (Option.some.inj hlive).symm ▸ List.mem_cons_self, rfl⟩
  obtain ⟨fl, hring, hsum⟩ := hall s (kmemCalls_reachable sbrkWithin_bounded _
    (kmemStart_reachable sbrkWithin_bounded (by decide)) halong hs)
  rw [hinit] at hring
  cases fl with
  | nil => exact absurd (hring.path.1.symm.trans hnext) (by decide)
  | cons k fl =>
    obtain rfl : k = 0x1000020 := Option.some.inj (hring.path.1.symm.trans hnext)
    cases fl with
    | nil =>
      rw [havail, List.map_cons, List.map_nil, List.sum_singleton, hsize] at hsum
      exact absurd hsum (by decide)
    | cons j fl =>
      obtain rfl : j = 0x1000000 := Option.some.inj (hring.path.2.2.1.symm.trans hback)
      exact hring.notMem (List.mem_cons_of_mem _ List.mem_cons_self)

end FlightOs
