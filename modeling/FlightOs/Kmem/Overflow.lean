/-
# Requests that do not fit

`kmalloc` adds the size of a header to the size that is asked for and rounds the sum up, and `kcalloc`
multiplies before that; all three are computed in a word and none is checked.  A request that wraps is
served with the chunk of the length that is left, and one of 2 GiB or more asks `kernel_sbrk` for a
negative increment.

`RequestKept` is what a caller may rely on for the mathematical number of bytes; `kmalloc_overflow_iff`
says when the two calls keep it: the request fits, or nothing is handed out anyway.
-/
import FlightOs.Kmem.Resize

namespace FlightOs

/-- What is left of a request for `n` bytes: a block that large next to the others, or none, and the
heap is as it was but for the flag of the failure.  What has no length in a word gets none. -/
structure RequestKept (s : KmemState) (n : Nat) (h : KmemHeap) (p : Nat) : Prop where
  block : p ≠ 0 → KmemSound True ⟨h, addBlock s.live p n⟩
  null : p = 0 → h = { s.heap with allocFail := h.allocFail }
  tooLarge : 2 ^ 32 ≤ n + kmemHeader + 7 → p = 0

def KmallocKept (allow : Nat → Nat → Bool) (s : KmemState) (size : Nat) : Prop :=
  ∃ h p, kmalloc s.heap allow size = some (h, p) ∧ RequestKept s size h p

def KcallocKept (allow : Nat → Nat → Bool) (s : KmemState) (nmemb size : Nat) : Prop :=
  ∃ h p, kcalloc s.heap allow nmemb size = some (h, p) ∧ RequestKept s (nmemb * size) h p

section Overflow

variable {s : KmemState} {h : KmemHeap} {cs : List Chunk} {fl : List Nat}
  {allow : Nat → Nat → Bool} {nmemb size n k p : Nat}

/-! ## 1. What each outcome keeps -/

theorem RequestKept.nothing : RequestKept s n s.heap 0 :=
  ⟨fun hp => absurd rfl hp, fun _ => rfl, fun _ => rfl⟩

theorem RequestKept.failed : RequestKept s n { s.heap with allocFail := 1 } 0 :=
  ⟨fun hp => absurd rfl hp, fun _ => rfl, fun _ => rfl⟩

theorem RequestKept.allocated (hown : KmemOwned s.live (liveOf cs))
    (hal : Allocates True s.heap h cs k n) (hn : n + 39 < 2 ^ 32) :
    RequestKept s n h (k + 32) := by
  refine ⟨fun _ => (KmemRun.allocates hown hal le_rfl).sound, fun hp => absurd hp (by omega), ?_⟩
  intro hlarge
  unfold kmemHeader at hlarge
  omega

/-- **A block that is handed out lies below the break**, so its size fits. -/
theorem RequestKept.fits (hk : RequestKept s n h p) (hp : p ≠ 0) (hbrk : h.brk ≤ vmallocEnd)
    (h₀ : KmemHeap) : n < 2 ^ 32 ∧ SizeFits h₀ n := by
  have hmem : (p, n) ∈ addBlock s.live p n := by
    rw [addBlock, if_neg hp]
    exact List.mem_cons_self
  have hle : p + n ≤ h.brk := (hk.block hp).le_brk hmem
  unfold vmallocEnd at hbrk
  exact ⟨by omega, sizeFits_of_le (by omega)⟩

/-! ## 2. The two calls -/

theorem kcalloc_null {h' : KmemHeap}
    (hk : kmalloc h allow (nmemb * size % 2 ^ 32) = some (h', 0)) :
    kcalloc h allow nmemb size = some (h', 0) := by
  simp only [kcalloc, hk]
  exact if_neg (fun h0 => h0 rfl)

theorem kcalloc_some {h' : KmemHeap} (hp : p ≠ 0)
    (hk : kmalloc h allow (nmemb * size % 2 ^ 32) = some (h', p)) :
    ∃ bytes, kcalloc h allow nmemb size = some ({ h' with bytes := bytes }, p) := by
  simp only [kcalloc, hk, if_pos hp]
  exact ⟨_, rfl⟩

/-- **`kmalloc`** keeps a request that fits, and one that hands out nothing. -/
theorem KmemRun.kmalloc_kept_iff (hrun : KmemRun True s) (hallow : SbrkStays allow) (size : Nat) :
    KmallocKept allow s size ↔
      size = 0 ∨ SizeFits s.heap size ∨ KmallocRefused s.heap allow size := by
  obtain ⟨cs, fl, I, hown⟩ := hrun
  rcases Nat.eq_zero_or_pos size with rfl | hpos
  · exact iff_of_true ⟨s.heap, 0, kmalloc_zero, .nothing⟩ (Or.inl rfl)
  constructor
  · rintro ⟨h', p, heq, hk⟩
    rcases I.kmalloc_total allow hpos with ⟨href, -⟩ | ⟨-, h₁, p₁, hp₁, heq₁⟩
    · exact Or.inr (Or.inr href)
    · obtain ⟨rfl, rfl⟩ := Prod.mk.inj (Option.some.inj (heq.symm.trans heq₁))
      exact Or.inr (Or.inl (hk.fits hp₁ (kmalloc_brk hallow I.brk.2 heq) s.heap).2)
  · rintro (h0 | hfits | href)
    · exact absurd h0 hpos.ne'
    · rcases I.kmalloc hallow.bounded hpos hfits with hfail | ⟨h', k, hk, hal⟩
      · exact ⟨_, 0, hfail, .failed⟩
      · exact ⟨h', k + 32, hk, .allocated hown hal hfits.1⟩
    · rcases I.kmalloc_total allow hpos with ⟨-, hfail⟩ | ⟨hno, -⟩
      · exact ⟨_, 0, hfail, .failed⟩
      · exact absurd href hno

/-- **`kcalloc`** does so too, for a product that does not wrap; one that wraps to zero hands out
nothing. -/
theorem KmemRun.kcalloc_kept_iff (hrun : KmemRun True s) (hallow : SbrkStays allow)
    (nmemb size : Nat) :
    KcallocKept allow s nmemb size ↔
      nmemb * size % 2 ^ 32 = 0 ∨ (nmemb * size < 2 ^ 32 ∧ SizeFits s.heap (nmemb * size)) ∨
        KmallocRefused s.heap allow (nmemb * size % 2 ^ 32) := by
  obtain ⟨cs, fl, I, hown⟩ := hrun
  rcases Nat.eq_zero_or_pos (nmemb * size % 2 ^ 32) with h0 | hpos
  · refine iff_of_true ⟨s.heap, 0, kcalloc_null ?_, .nothing⟩ (Or.inl h0)
    rw [h0, kmalloc_zero]
  constructor
  · rintro ⟨h', p, heq, hk⟩
    rcases I.kmalloc_total allow hpos with ⟨href, -⟩ | ⟨-, h₁, p₁, hp₁, heq₁⟩
    · exact Or.inr (Or.inr href)
    · obtain ⟨bytes, hcalloc⟩ := kcalloc_some hp₁ heq₁
      obtain ⟨rfl, rfl⟩ := Prod.mk.inj (Option.some.inj (heq.symm.trans hcalloc))
      have hbrk : h₁.brk ≤ vmallocEnd := kmalloc_brk hallow I.brk.2 heq₁
      exact Or.inr (Or.inl (hk.fits hp₁ hbrk s.heap))
  · rintro (h0 | ⟨hlt, hfits⟩ | href)
    · exact absurd h0 hpos.ne'
    · have hlen : nmemb * size % 2 ^ 32 = nmemb * size := Nat.mod_eq_of_lt hlt
      rw [hlen] at hpos
      rcases I.kcalloc hallow.bounded hlen hpos hfits with hfail | ⟨h', k, hk, hal, -⟩
      · exact ⟨_, 0, hfail, .failed⟩
      · exact ⟨h', k + 32, hk, .allocated hown hal hfits.1⟩
    · rcases I.kmalloc_total allow hpos with ⟨-, hfail⟩ | ⟨hno, -⟩
      · exact ⟨_, 0, kcalloc_null hfail, .failed⟩
      · exact absurd href hno

end Overflow

/-! ## 3. When a request is kept -/

/-- **A request is kept** in every state of a run if it fits or nothing is handed out, and only then. -/
theorem kmalloc_overflow_iff (cfg : KmemConfig) {s : KmemState}
    (h : (kmemSystem cfg SbrkStays).Reachable KmemOk s) {allow : Nat → Nat → Bool}
    (hallow : SbrkStays allow) :
    (∀ size, KmallocKept allow s size ↔
      size = 0 ∨ SizeFits s.heap size ∨ KmallocRefused s.heap allow size) ∧
    ∀ nmemb size, KcallocKept allow s nmemb size ↔
      nmemb * size % 2 ^ 32 = 0 ∨ (nmemb * size < 2 ^ 32 ∧ SizeFits s.heap (nmemb * size)) ∨
        KmallocRefused s.heap allow (nmemb * size % 2 ^ 32) := by
  have hrun : KmemRun True s := KmemRun.of_reachable (fun _ hA => hA.bounded) (Or.inl trivial) h
  exact ⟨hrun.kmalloc_kept_iff hallow, hrun.kcalloc_kept_iff hallow⟩

theorem kmalloc_overflow_iff_oneBlock : ∃ s,
    kmemCalls kmemKeeping sbrkInRange (kmemStart sbrkInRange) [.kmalloc 8] = some s ∧
      (KcallocKept sbrkInRange s 0x10000 0x10001 ↔
        0x10000 * 0x10001 % 2 ^ 32 = 0 ∨
          (0x10000 * 0x10001 < 2 ^ 32 ∧ SizeFits s.heap (0x10000 * 0x10001)) ∨
          KmallocRefused s.heap sbrkInRange (0x10000 * 0x10001 % 2 ^ 32)) := by
  obtain ⟨s, hs, hreach, -⟩ := kmemOneBlock
  exact ⟨s, hs, (kmalloc_overflow_iff kmemKeeping hreach sbrkInRange_stays).2 0x10000 0x10001⟩

/-- **`kmalloc(0xFFFFFFF0)`** returns a block. -/
theorem kmalloc_overflow_served : ¬ ∀ s, (kmemSystem kmemKeeping SbrkStays).Reachable KmemOk s →
    ∀ size < 2 ^ 32, KmallocKept sbrkInRange s size := by
  intro hall
  have hkept := hall (kmemStart sbrkInRange)
    (kmemStart_reachable sbrkInRange_stays (by decide)) 0xFFFFFFF0 (by decide)
  obtain ⟨h, p, heq, hk⟩ := hkept
  have hp : (kmalloc (kmemStart sbrkInRange).heap sbrkInRange 0xFFFFFFF0).map Prod.snd =
      some 0x1000040 := by decide
  rw [heq, hk.tooLarge (by decide)] at hp
  have h0 : 0 = 0x1000040 := Option.some.inj hp
  exact absurd h0 (by decide)

end FlightOs
