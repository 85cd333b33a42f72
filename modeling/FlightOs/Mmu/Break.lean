/-
# The system break: `kernel_sbrk` in `arch/sparc/kernel/mmu.c`

The break of a context and its bounds, and what `kernel_sbrk` makes of an increment.  An increment
is a signed number; here it is a word, and from `2 ^ 31` on it stands for a negative one.  The
bounds are unsigned, so a break is compared with them as a word, and an increment is compared
with the free memory as a word as well: `(size_t)increment > mm_free_bytes()`.

The call also tells which pages it gives back; what becomes of them is in the modules that follow.
-/
import FlightOs.Mm.Pool

namespace FlightOs

def highmemStart : Nat := 0x20000000
def vmallocStart : Nat := 0x01000000
def vmallocEnd : Nat := 0x1FFFFFFF

/-- `PAGE_SIZE` -/
def pageSize : Nat := 4096

/-- `PAGE_ALIGN(x)` -/
def pageAlign (x : Nat) : Nat := walign x pageSize

def mmFreeBytes (st : MmStat) : Nat := wsub st.totalBlocks st.usedBlocks * pageSize % 2 ^ 32

structure MmSbrk where
  sbrk : Nat
  addrLo : Nat
  addrHi : Nat
deriving DecidableEq

/-- The bounds that `mm_set_mmu_ctx` gives a context. -/
def kernelBounds (brk : Nat) : MmSbrk := ⟨brk, vmallocStart, vmallocEnd⟩

/-- The pages that are unmapped as the break goes from `oldbrk` down to `brk`. -/
def sbrkRelease (oldbrk brk : Nat) : Option (Nat × Nat) :=
  if pageAlign brk < pageAlign (wsub oldbrk pageSize) then
    if pageAlign brk < pageAlign oldbrk then some (pageAlign brk, pageAlign oldbrk) else none
  else none

/-- What a call returns, the break it leaves, and the range that is given back. -/
structure SbrkResult where
  ret : Nat
  sbrk : Nat
  release : Option (Nat × Nat)
deriving DecidableEq

/-- `kernel_sbrk(increment)`, or nothing where it returns `(void *) -1`. -/
def kernelSbrk (m : MmSbrk) (freeBytes increment : Nat) : Option SbrkResult :=
  if increment = 0 then some ⟨m.sbrk, m.sbrk, none⟩
  else
    let increment := walign increment 8
    let brk := wadd m.sbrk increment
    if freeBytes < increment then none
    else if brk < m.addrLo then none
    else if m.addrHi < brk then none
    else some ⟨m.sbrk, brk, if 2 ^ 31 ≤ increment then sbrkRelease m.sbrk brk else none⟩

/-- An increment is accepted. -/
def SbrkAccepts (m : MmSbrk) (freeBytes increment : Nat) : Prop :=
  walign increment 8 ≤ freeBytes ∧ m.addrLo ≤ wadd m.sbrk (walign increment 8) ∧
    wadd m.sbrk (walign increment 8) ≤ m.addrHi

instance (m : MmSbrk) (freeBytes increment : Nat) : Decidable (SbrkAccepts m freeBytes increment) :=
  inferInstanceAs (Decidable (_ ∧ _ ∧ _))

theorem kernelSbrk_some {m : MmSbrk} {freeBytes n : Nat} (hn : n ≠ 0)
    (h : SbrkAccepts m freeBytes n) :
    kernelSbrk m freeBytes n = some ⟨m.sbrk, wadd m.sbrk (walign n 8),
      if 2 ^ 31 ≤ walign n 8 then sbrkRelease m.sbrk (wadd m.sbrk (walign n 8)) else none⟩ := by
  unfold kernelSbrk
  rw [if_neg hn]
  exact (if_neg (not_lt.mpr h.1)).trans
    ((if_neg (not_lt.mpr h.2.1)).trans (if_neg (not_lt.mpr h.2.2)))

theorem kernelSbrk_none {m : MmSbrk} {freeBytes n : Nat} (hn : n ≠ 0)
    (h : ¬ SbrkAccepts m freeBytes n) : kernelSbrk m freeBytes n = none := by
  unfold kernelSbrk
  rw [if_neg hn]
  simp only
  split_ifs with h1 h2 h3
  · rfl
  · rfl
  · rfl
  · exact absurd ⟨not_lt.mp h1, not_lt.mp h2, not_lt.mp h3⟩ h

end FlightOs
