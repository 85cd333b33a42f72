/-
# Splitting, and the end of the heap

`kmem_split` cuts a free chunk off another one.  The other changes are those that move the break:
a chunk is put behind the last one, the last one grows, or it is taken away.
-/
import FlightOs.Kmem.Edit

namespace FlightOs

namespace Layout

variable {gap : Prop} {h h' : KmemHeap} {cs pre post : List Chunk} {fl : List Nat}
  {c d : Chunk} {a e s n x : Nat} {u : ChunkUse}

/-! ## 1. Splitting -/

/-- The fields of the rest of the heap, and all headers, after a split. -/
structure SplitOff (h h' : KmemHeap) (a len s F : Nat) : Prop where
  init : h'.init = h.init
  brk : h'.brk = h.brk
  links : h'.links = listAddTail h.links (a + 32 + len) h.init
  last : h'.last = if F = 0 then a + 32 + len else h.last
  avail : h'.availBytes = wadd h.availBytes (s - len - 32)
  fail : h'.allocFail = h.allocFail
  self : h'.hdr a = { h.hdr a with size := len, next := a + 32 + len }
  new : h'.hdr (a + 32 + len) = ⟨a + 32 + len + 32, s - len - 32, kmemFreeMagic, a, F, 0⟩
  other : ∀ x, x ≠ a → x ≠ a + 32 + len →
    h'.hdr x = if x = F ∧ x ≠ 0 then { h.hdr x with prev := a + 32 + len } else h.hdr x
  bytes : ∀ x, ¬ (a ≤ x ∧ x < a + kmemHeader) →
    ¬ (a + 32 + len ≤ x ∧ x < a + 32 + len + kmemHeader) →
    ¬ (F ≠ 0 ∧ F ≤ x ∧ x < F + kmemHeader) → h'.bytes x = h.bytes x

theorem split_off (L : Layout gap h (pre ++ ⟨a, s, u⟩ :: post) fl) (hu : u ≠ .root)
    (hlen : 8 ∣ n) (hfit : n + 32 ≤ s) :
    SplitOff h (kmemSplit h a n) a n s (firstAddr Chunk.addr post 0) := by
  have ha := L.header_eq
  have hrange : 0 < a ∧ a + 32 + s < 2 ^ 29 := L.range (c := ⟨a, s, u⟩) (by simp)
  have halign : 8 ∣ a ∧ 8 ∣ s := L.aligned ⟨a, s, u⟩ (by simp)
  have hda : (h.hdr a).data = a + 32 := by
    rw [ha]
    exact if_neg hu
  have hsa : (h.hdr a).size = s := by rw [ha]; rfl
  have hna : (h.hdr a).next = firstAddr Chunk.addr post 0 := by rw [ha]; rfl
  have hS : wordAlign (wadd (a + 32) n) = a + 32 + n := by
    rw [wadd_of_lt (by omega)]
    exact wordAlign_of_dvd (by omega) (by omega)
  have hSa : a ≠ a + 32 + n := by omega
  have hFa : firstAddr Chunk.addr post 0 ≠ a ∧ firstAddr Chunk.addr post 0 ≠ a + 32 + n := by
    cases post with
    | nil => exact ⟨hrange.1.ne, by simp only [firstAddr_nil]; omega⟩
    | cons d post =>
      have hlt : a + 32 + s ≤ d.addr := L.sorted.2 d List.mem_cons_self
      simp only [firstAddr_cons]
      omega
  have hdata : wadd (a + 32 + n) kmemHeader = a + 32 + n + 32 := wadd_of_lt (by unfold kmemHeader; omega)
  have hback : wsub (a + 32 + n) (a + 32) = n := by
    rw [wsub_of_le (by omega) (by omega)]
    omega
  have hrest : wsub (wsub s n) kmemHeader = s - n - 32 := by
    rw [wsub_of_le (a := s) (by omega) (by omega), kmemHeader, wsub_of_le (by omega) (by omega)]
  have hcheck : ¬ s < wadd n kmemHeader := by
    rw [kmemHeader, wadd_of_lt (by omega)]
    omega
  generalize firstAddr Chunk.addr post 0 = F at *
  have hsplit : kmemSplit h a n = kmemSplitAt
      (h.set (a + 32 + n) { h.hdr (a + 32 + n) with data := a + 32 + n + 32 }) a (a + 32 + n) n := by
    simp only [kmemSplit, hda, hS, hdata, KmemHeap.set, Function.update_of_ne hSa, hback, hsa]
    exact if_neg hcheck
  rw [hsplit]
  by_cases h0 : F = 0
  · subst h0
    constructor
    case other =>
      intro x h1 h2
      simp [kmemSplitAt, KmemHeap.set, hna, hsa, hda, hSa, hSa.symm, hback, hrest, h1, h2]
    case bytes =>
      intro x h1 h2 _
      simp [kmemSplitAt, KmemHeap.set, hna, hSa, hSa.symm, if_neg h1, if_neg h2]
    all_goals simp [kmemSplitAt, KmemHeap.set, hna, hsa, hda, hSa, hSa.symm, hback, hrest]
  · obtain ⟨hFa, hFS⟩ := hFa
    constructor
    case other =>
      intro x h1 h2
      by_cases hx : x = F
      · subst hx
        simp [kmemSplitAt, KmemHeap.set, hna, hSa, hSa.symm, h0, h1, h2, Ne.symm hFS]
      · simp [kmemSplitAt, KmemHeap.set, hna, hSa, hSa.symm, h0, h1, h2, Ne.symm hFS, hx]
    case bytes =>
      intro x h1 h2 h3
      have h3' : ¬ (F ≤ x ∧ x < F + kmemHeader) := fun e => h3 ⟨h0, e⟩
      simp [kmemSplitAt, KmemHeap.set, hna, hSa, hSa.symm, h0, hFa, hFS, Ne.symm hFS, if_neg h1,
        if_neg h2, if_neg h3']
    all_goals simp [kmemSplitAt, KmemHeap.set, hna, hsa, hda, hSa, hSa.symm, hback, hrest, h0, hFa,
      hFS, Ne.symm hFS, Ne.symm hFa]

/-- No chunk starts inside another one. -/
theorem notMem_inside (L : Layout gap h cs fl) (hc : c ∈ cs) (h1 : c.addr < x) (h2 : x < c.stop) :
    x ∉ h.init :: fl := by
  have hno : ∀ d ∈ cs, d.addr ≠ x := by
    rintro d hd rfl
    unfold Chunk.stop at h2
    by_cases he : c = d
    · subst he
      exact absurd h1 (lt_irrefl _)
    · have := L.apart hc hd he
      omega
  intro hmem
  rcases List.mem_cons.mp hmem with rfl | hmem
  · exact hno _ L.init_mem rfl
  · obtain ⟨d, hd, hda, -⟩ := (L.listed x).mp hmem
    exact hno d hd hda

/-- **`kmem_split`**: what is left of the chunk is a free chunk, last on the list. -/
theorem split (L : Layout gap h (pre ++ ⟨a, s, u⟩ :: post) fl) (hu : u ≠ .root) (hlen : 8 ∣ n)
    (hfit : n + 32 ≤ s) :
    Layout gap (kmemSplit h a n)
      (pre ++ ⟨a, n, u⟩ :: ⟨a + 32 + n, s - n - 32, .free⟩ :: post) (fl ++ [a + 32 + n]) := by
  have S := L.split_off hu hlen hfit
  have halign : 8 ∣ a ∧ 8 ∣ s := L.aligned ⟨a, s, u⟩ (by simp)
  have hpost : ∀ d ∈ post, a + 32 + s ≤ d.addr := L.sorted.2
  have hpre : ∀ d ∈ pre, d.addr + 32 + d.size ≤ a := L.sorted.1
  have hL : Layout gap h (pre ++ ([⟨a, s, u⟩] ++ post)) fl := L
  refine hL.edit [⟨a, n, u⟩, ⟨a + 32 + n, s - n - 32, .free⟩] (by simpa using hu)
    (List.cons_ne_nil _ _) (by simp [hu]) rfl S.init S.brk (fun d hd => ?_) ⟨?_, ?_, ?_⟩
    (fun m m' ht => ?_) ?_ ?_ (fun x => ?_)
  · have hlt := hpre d hd
    rw [S.other _ (by omega) (by omega), if_neg]
    rintro ⟨he, h0⟩
    cases post with
    | nil => exact h0 he
    | cons e post =>
      have hle := hpost e List.mem_cons_self
      rw [firstAddr_cons] at he
      omega
  · rw [S.self, L.header_eq]
    rfl
  · rw [S.new]
    rfl
  · refine L.chain_behind (fun d hd => S.other _ ?_ ?_)
    · have := hpost d hd
      omega
    · have := hpost d hd
      omega
  · obtain ⟨h1, -, h3⟩ := ht
    have hstop : Chunk.stop ⟨a + 32 + n, s - n - 32, .free⟩ = Chunk.stop ⟨a, s, u⟩ := by
      simp only [Chunk.stop]
      omega
    refine ⟨h1, Chunk.addr_le_stop _, Meets.refl, Chunk.addr_le_stop _, ?_⟩
    rw [hstop]
    exact h3
  · intro c hc
    simp only [List.mem_cons, List.not_mem_nil, or_false] at hc
    rcases hc with rfl | rfl
    · exact ⟨halign.1, hlen⟩
    · simp only
      omega
  · rw [S.links]
    refine listAddTail_ring L.ring (L.notMem_inside (c := ⟨a, s, u⟩) (by simp) ?_ ?_)
    · simp only
      omega
    · simp only [Chunk.stop]
      omega
  · have hold : x ∈ fl ↔ FreeAt (pre ++ ⟨a, s, u⟩ :: post) x := L.listed x
    simp only [freeAt_append, freeAt_cons] at hold
    simp only [List.mem_append, List.mem_singleton, hold, List.cons_append, List.nil_append,
      freeAt_append, freeAt_cons, eq_comm (a := x)]
    tauto

theorem split_bytes (L : Layout gap h (pre ++ ⟨a, s, u⟩ :: post) fl) (hu : u ≠ .root)
    (hl : u ≠ .live) (hlen : 8 ∣ n) (hfit : n + 32 ≤ s) (hx : LiveByte (pre ++ ⟨a, s, u⟩ :: post) x) :
    (kmemSplit h a n).bytes x = h.bytes x := by
  have hin := L.live_outside_free hx (d := ⟨a, s, u⟩) (by simp) hl
  simp only [Chunk.stop] at hin
  refine (L.split_off hu hlen hfit).bytes x (L.live_outside hx (d := ⟨a, s, u⟩) (by simp)) ?_ ?_
  · unfold kmemHeader
    omega
  · cases post with
    | nil => exact fun e => e.1 rfl
    | cons d post => exact fun e => L.live_outside hx (d := d) (by simp) e.2

/-! ## 2. The end of the heap -/

/-- The last chunk grows up to the new break. -/
theorem grow (L : Layout gap h (pre ++ [⟨a, s, .taken⟩]) fl) (he : 8 ∣ e) (hle : h.brk ≤ e)
    (hend : e ≤ vmallocEnd) :
    Layout gap (KmemHeap.set { h with brk := e } a { h.hdr a with size := e - a - 32 })
      (pre ++ [⟨a, e - a - 32, .taken⟩]) fl := by
  have hbound : h.init ≤ a ∧ a + 32 + s ≤ h.brk := L.bounds (c := ⟨a, s, .taken⟩) (by simp)
  have halign : 8 ∣ a ∧ 8 ∣ s := L.aligned ⟨a, s, .taken⟩ (by simp)
  have hpre : ∀ d ∈ pre, d.addr + 32 + d.size ≤ a := L.sorted.1
  obtain ⟨m, h1, h2, -, -⟩ := tiled_mid.mp L.tiled
  have hroot : Rooted h.init (pre ++ ([⟨a, s, .taken⟩] ++ [])) := L.root
  have hroot' : Rooted h.init (pre ++ ([⟨a, e - a - 32, .taken⟩] ++ [])) :=
    hroot.replace _ (List.cons_ne_nil _ _) (by simp) (by simp)
  refine ⟨chained_mid.mpr ⟨(chained_mid.mp L.chain).1.congr (fun d hd => ?_), ?_, trivial⟩, ?_,
    fun c hc => ?_, ⟨he, hend⟩, L.low, hroot', L.ring, fun x => ?_⟩
  · have := hpre d hd
    exact Function.update_of_ne (by omega) _ _
  · have hself : (KmemHeap.set { h with brk := e } a { h.hdr a with size := e - a - 32 }).hdr a =
        { h.hdr a with size := e - a - 32 } := Function.update_self _ _ _
    rw [hself, L.header_eq]
    rfl
  · refine tiled_mid.mpr ⟨m, h1, h2, Chunk.addr_le_stop _, Or.inl ?_⟩
    show a + 32 + (e - a - 32) = e
    omega
  · rcases List.mem_append.mp hc with hc | hc
    · exact L.aligned c (List.mem_append_left _ hc)
    · rw [List.mem_singleton] at hc
      subst hc
      exact ⟨halign.1, by simp only; omega⟩
  · have hold : x ∈ fl ↔ FreeAt (pre ++ [⟨a, s, .taken⟩]) x := L.listed x
    rw [hold]
    show _ ↔ FreeAt (pre ++ [⟨a, e - a - 32, .taken⟩]) x
    simp

/-- A chunk is put behind the last one, from the old break up to the new one. -/
theorem extend (L : Layout gap h (pre ++ [c]) fl) (hn : 8 ∣ n) (hu : u ≠ .free) (hr : u ≠ .root)
    (hend : h.brk + 32 + n ≤ vmallocEnd) (hinit : h'.init = h.init)
    (hbrk : h'.brk = h.brk + 32 + n) (hlinks : Ring h'.links h.init fl)
    (hnew : h'.hdr h.brk = Chunk.header ⟨h.brk, n, u⟩ c.addr 0)
    (hlast : h'.hdr c.addr = { h.hdr c.addr with next := h.brk })
    (hother : ∀ d ∈ pre, h'.hdr d.addr = h.hdr d.addr) :
    Layout gap h' (pre ++ [c] ++ [⟨h.brk, n, u⟩]) fl := by
  refine ⟨?_, ?_, fun d hd => ?_, ?_, hinit ▸ L.low, ?_, hinit ▸ hlinks, fun x => ?_⟩
  · refine chained_append.mpr ⟨L.chain.renext ?_ hother, ?_, trivial⟩
    · rw [hlast, L.header_eq]
      rfl
    · rw [lastAddr_concat]
      exact hnew
  · rw [hinit, hbrk]
    exact tiled_mid.mpr ⟨h.brk, L.tiled, Meets.refl, Chunk.addr_le_stop _, Meets.refl⟩
  · rcases List.mem_append.mp hd with hd | hd
    · exact L.aligned d hd
    · rw [List.mem_singleton] at hd
      subst hd
      exact ⟨L.brk.1, hn⟩
  · have := L.brk.1
    rw [hbrk]
    exact ⟨by omega, hend⟩
  · obtain ⟨rest, heq, hrest⟩ := L.root
    rw [heq, hinit]
    refine ⟨rest ++ [⟨h.brk, n, u⟩], rfl, fun d hd => ?_⟩
    rcases List.mem_append.mp hd with hd | hd
    · exact hrest d hd
    · rw [List.mem_singleton] at hd
      rwa [hd]
  · have hold : x ∈ fl ↔ FreeAt (pre ++ [c]) x := L.listed x
    rw [hold]
    show _ ↔ FreeAt (pre ++ [c] ++ [⟨h.brk, n, u⟩]) x
    simp [hu]

/-- The last chunk is taken away, and the break lowered, not below the chunk before it. -/
theorem shrink (L : Layout gap h (pre ++ [c] ++ [⟨a, s, u⟩]) fl) (hu : u ≠ .root)
    (hinit : h'.init = h.init) (he : 8 ∣ h'.brk) (hend : h'.brk ≤ h.brk)
    (hmeets : Meets gap c.stop h'.brk) (hring : Ring h'.links h.init (fl.erase a))
    (hlast : h'.hdr c.addr = { h.hdr c.addr with next := 0 })
    (hother : ∀ d ∈ pre, h'.hdr d.addr = h.hdr d.addr) :
    Layout gap h' (pre ++ [c]) (fl.erase a) := by
  have hnd : fl.Nodup := (List.nodup_cons.mp L.ring.nodup).2
  have hlt : ∀ d ∈ pre ++ [c], d.addr + 32 + d.size ≤ a := L.sorted.1
  have hchain := chained_append.mp L.chain
  refine ⟨hchain.1.renext ?_ hother, ?_, fun d hd => L.aligned d (List.mem_append_left _ hd),
    ⟨he, hend.trans L.brk.2⟩, hinit ▸ L.low, ?_, hinit ▸ hring, fun x => ?_⟩
  · rw [hlast, (chained_mid.mp hchain.1).2.1]
    rfl
  · obtain ⟨m, h1, h2, h3, -⟩ := tiled_mid.mp (tiled_append.mp L.tiled).choose_spec.1
    rw [hinit]
    exact tiled_mid.mpr ⟨m, h1, h2, h3, hmeets⟩
  · have hroot : Rooted h.init ((pre ++ [c]) ++ ([⟨a, s, u⟩] ++ [])) := L.root
    have hroot' := hroot.replace [] (List.cons_ne_nil _ _) (by simpa using hu) (by simp)
    simpa [hinit] using hroot'
  · have hold : x ∈ fl ↔ FreeAt (pre ++ [c] ++ [⟨a, s, u⟩]) x := L.listed x
    have hno : FreeAt (pre ++ [c]) x → x ≠ a := by
      rintro ⟨d, hd, rfl, -⟩
      have := hlt d hd
      omega
    rw [hnd.mem_erase_iff, hold, freeAt_append]
    show _ ↔ FreeAt (pre ++ [c]) x
    constructor
    · rintro ⟨hne, hx | hx⟩
      · exact hx
      · rw [freeAt_cons] at hx
        exact absurd (hx.resolve_right freeAt_nil).1.symm hne
    · exact fun hx => ⟨hno hx, Or.inl hx⟩

end Layout

end FlightOs
