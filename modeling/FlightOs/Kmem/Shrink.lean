/-
# The heap and the system break

The heap over the real `kernel_sbrk`.  When `kmem_release_unused` takes the last chunk away, it
asks for a negative increment; `kernel_sbrk` compares it with the free memory as an unsigned number
and refuses nearly all of them, and the heap does not look.

`kmem_release_agrees_iff` says when the break goes down with the heap.
-/
import FlightOs.Kmem.Contract

namespace FlightOs

/-! ## 1. `kernel_sbrk` under the heap -/

/-- Whether `kernel_sbrk` moves the break. -/
def kernelSbrkAllows (st : MmStat) (brk n : Nat) : Bool :=
  (kernelSbrk (kernelBounds brk) (mmFreeBytes st) n).isSome

/-- The answers of `kernel_sbrk`, whatever memory there is. -/
def KernelSbrk (allow : Nat → Nat → Bool) : Prop := ∃ st, allow = kernelSbrkAllows st

section Kernel

variable {h : KmemHeap} {st : MmStat} {brk n : Nat}

theorem kernelSbrk_allows_iff (hn : n ≠ 0) : kernelSbrkAllows st brk n = true ↔
    SbrkAccepts (kernelBounds brk) (mmFreeBytes st) n := by
  unfold kernelSbrkAllows
  by_cases h : SbrkAccepts (kernelBounds brk) (mmFreeBytes st) n
  · simp [kernelSbrk_some hn h, h]
  · simp [kernelSbrk_none hn h, h]

/-- **The break of the heap is the one of `kernel_sbrk`.** -/
theorem sbrk_kernel : h.sbrk (kernelSbrkAllows st) n =
    match kernelSbrk (kernelBounds h.brk) (mmFreeBytes st) n with
    | none => (h, sbrkError)
    | some r => ({ h with brk := r.sbrk }, r.ret) := by
  unfold KmemHeap.sbrk
  by_cases hn : n = 0
  · rw [if_pos hn, kernelSbrk, if_pos hn]
    rfl
  · rw [if_neg hn]
    by_cases h : SbrkAccepts (kernelBounds h.brk) (mmFreeBytes st) n
    · rw [if_pos ((kernelSbrk_allows_iff hn).mpr h), kernelSbrk_some hn h]
      rfl
    · rw [if_neg (fun e => h ((kernelSbrk_allows_iff hn).mp e)), kernelSbrk_none hn h]

theorem KernelSbrk.bounded {allow : Nat → Nat → Bool} (h : KernelSbrk allow) : Bounded allow := by
  obtain ⟨st, rfl⟩ := h
  intro brk n hbrk hn hok
  have hal := (walign_spec (x := n) (a := 8) (by omega) (by omega)).2.2
  unfold vmallocEnd at *
  by_cases h0 : n = 0
  · subst h0
    have h8 : walign 0 8 = 0 := by decide
    omega
  · have hle : wadd brk (walign n 8) ≤ vmallocEnd := ((kernelSbrk_allows_iff h0).mp hok).2.2
    unfold vmallocEnd at hle
    rwa [wadd_of_lt (by omega)] at hle

end Kernel

/-! ## 2. Shrinking the heap -/

/-- A last chunk that is free either stays, and the break with it, or it goes, and the break goes
down by its size and its header. -/
def ReleaseAgrees (cfg : KmemConfig) (allow : Nat → Nat → Bool) (h : KmemHeap) : Prop :=
  let h₁ := kmemReleaseCut cfg h
  let h' := kmemReleaseUnused cfg h allow
  (h.hdr h.last).free = kmemFreeMagic →
    (h'.last = h₁.last ∧ h'.brk = h.brk ∧ ∃ fl, Ring h'.links h'.init fl ∧ h₁.last ∈ fl) ∨
    (h'.last ≠ h₁.last ∧ h'.brk + ((h₁.hdr h₁.last).size + kmemHeader) = h.brk)

theorem HeapInv.release_agrees_iff {gap : Prop} {h : KmemHeap} {cs : List Chunk} {fl : List Nat}
    {cfg : KmemConfig} {allow : Nat → Nat → Bool} (I : HeapInv gap h cs fl)
    (hallow : gap ∨ Grants allow) : ReleaseAgrees cfg allow h ↔
      ((h.hdr h.last).free = kmemFreeMagic →
        allow h.brk (2 ^ 32 - (releaseSize cfg (h.hdr h.last).size + 32)) = true) := by
  refine imp_congr_right (fun hfree => ?_)
  obtain ⟨pre, ⟨a, s, u⟩, rfl, hlast, hiff⟩ := I.last_chunk
  obtain rfl : u = .free := hiff.mp hfree
  have hs : (h.hdr h.last).size = s := by
    rw [hlast]
    exact I.size_eq (c := ⟨a, s, .free⟩) (by simp)
  obtain ⟨pre', a', fl', R, -, -, hbrk, -⟩ := I.cut cfg
  obtain ⟨I', -, -, hbrk'⟩ := R.drop hallow
  rw [kmemReleaseUnused_eq hfree, hs]
  generalize kmemReleaseCut cfg h = h₁ at *
  have hn : (h₁.hdr h₁.last).size = releaseSize cfg s := by
    rw [R.last]
    exact R.size_eq (c := ⟨a', releaseSize cfg s, .free⟩) (by simp)
  have hne : (kmemShrink h₁ allow).last ≠ h₁.last := by
    obtain ⟨pre₂, c, rfl⟩ := R.root.before (by simp)
    have hbound : c.addr + 32 + c.size ≤ a' :=
      R.sorted.1 c (List.mem_append_right _ List.mem_cons_self)
    rw [I'.last, lastAddr_concat, R.last]
    omega
  have hend : a' + 32 + releaseSize cfg s ≤ h₁.brk :=
    (R.bounds (c := ⟨a', releaseSize cfg s, .free⟩) (by simp)).2
  rw [hn, hbrk', hbrk, kmemHeader]
  rw [hbrk] at hend
  constructor
  · rintro (⟨h1, -⟩ | ⟨-, h2⟩)
    · exact absurd h1 hne
    · by_contra hno
      rw [if_neg hno] at h2
      omega
  · intro hok
    rw [if_pos hok]
    exact Or.inr ⟨hne, by omega⟩

/-- **The break goes down with the heap** only if the increment, as an unsigned number, is no more
than the free memory. -/
theorem kmem_release_agrees_iff (cfg : KmemConfig) {s : KmemState}
    (h : (kmemSystem cfg KernelSbrk).Reachable KmemOk s) (st : MmStat) :
    ReleaseAgrees cfg (kernelSbrkAllows st) s.heap ↔
      ((s.heap.hdr s.heap.last).free = kmemFreeMagic →
        2 ^ 32 - (releaseSize cfg (s.heap.hdr s.heap.last).size + 32) ≤ mmFreeBytes st) := by
  have hrun : KmemRun True s := KmemRun.of_reachable (fun _ hA => hA.bounded) (Or.inl trivial) h
  obtain ⟨cs, fl, I, -⟩ := hrun
  rw [I.release_agrees_iff (Or.inl trivial)]
  refine imp_congr_right (fun hfree => ?_)
  obtain ⟨pre, ⟨a, t, u⟩, rfl, hlast, hiff⟩ := I.last_chunk
  obtain rfl : u = .free := hiff.mp hfree
  have hs : (s.heap.hdr s.heap.last).size = t := by
    rw [hlast]
    exact I.size_eq (c := ⟨a, t, .free⟩) (by simp)
  obtain ⟨pre', a', fl', R, -, hinit, hbrk, -⟩ := I.cut cfg
  rw [hs]
  have hbound : (kmemReleaseCut cfg s.heap).init ≤ a' ∧
      a' + 32 + releaseSize cfg t ≤ (kmemReleaseCut cfg s.heap).brk :=
    R.bounds (c := ⟨a', releaseSize cfg t, .free⟩) (by simp)
  have halign : 8 ∣ a' ∧ 8 ∣ releaseSize cfg t :=
    R.aligned ⟨a', releaseSize cfg t, .free⟩ (by simp)
  rw [hinit, hbrk] at hbound
  have hlow := I.low
  have hend := I.brk.2
  unfold vmallocStart at hlow
  unfold vmallocEnd at hend
  generalize releaseSize cfg t = n at *
  have hinc : walign (2 ^ 32 - (n + 32)) 8 = 2 ^ 32 - (n + 32) :=
    walign_of_dvd (by omega) (by omega) (by omega)
  have hnew : wadd s.heap.brk (2 ^ 32 - (n + 32)) = s.heap.brk - (n + 32) := by
    unfold wadd
    omega
  rw [kernelSbrk_allows_iff (by omega)]
  simp only [SbrkAccepts, kernelBounds, hinc, hnew]
  refine and_iff_left ⟨?_, ?_⟩
  · unfold vmallocStart
    omega
  · unfold vmallocEnd
    omega

/-- Sixteen megabytes of free memory. -/
def mmStat16M : MmStat := ⟨4096, 0, 0⟩

/-- Unused memory is released in the background. -/
def kmemBackground : KmemConfig := ⟨true, false, true, 0⟩

/-- The last chunk of the heap is free. -/
theorem kmemLastFree : ∃ s,
    (kmemSystem kmemBackground KernelSbrk).Reachable KmemOk s ∧
      (s.heap.hdr s.heap.last).free = kmemFreeMagic ∧ (s.heap.hdr s.heap.last).size = 8 := by
  have hrun : (kmemCalls kmemBackground (kernelSbrkAllows mmStat16M)
      (kmemStart (kernelSbrkAllows mmStat16M)) [.kmalloc 8, .kfree 0x1000040]).map
      (fun s => ((s.heap.hdr s.heap.last).free, (s.heap.hdr s.heap.last).size)) =
      some (kmemFreeMagic, 8) := by decide
  have hlive : (kmemCalls kmemBackground (kernelSbrkAllows mmStat16M)
      (kmemStart (kernelSbrkAllows mmStat16M)) [.kmalloc 8]).map KmemState.live =
      some [(0x1000040, 8)] := by decide
  have hA : KernelSbrk (kernelSbrkAllows mmStat16M) := ⟨_, rfl⟩
  obtain ⟨s, hs, hobs⟩ := Option.map_eq_some_iff.mp hrun
  have halong : AlongCalls kmemBackground (kernelSbrkAllows mmStat16M) KmemOk
      (kmemStart (kernelSbrkAllows mmStat16M)) [.kmalloc 8, .kfree 0x1000040] := by
    refine ⟨⟨trivial, sizeFits_of_le (by decide)⟩, fun s₁ h₁ => ⟨⟨Or.inr ?_, trivial⟩,
      fun _ _ => trivial⟩⟩
    rw [kmemCalls, h₁] at hlive
    exact ⟨_, (Option.some.inj hlive).symm ▸ List.mem_cons_self, rfl⟩
  obtain ⟨h1, h2⟩ := Prod.mk.inj hobs
  exact ⟨s, kmemCalls_reachable hA _ (kmemStart_reachable hA (by decide)) halong hs, h1, h2⟩

theorem kmem_release_agrees_iff_lastFree : ∃ s,
    (kmemSystem kmemBackground KernelSbrk).Reachable KmemOk s ∧
      (ReleaseAgrees kmemBackground (kernelSbrkAllows mmStat16M) s.heap ↔
        ((s.heap.hdr s.heap.last).free = kmemFreeMagic →
          2 ^ 32 - (releaseSize kmemBackground (s.heap.hdr s.heap.last).size + 32) ≤
            mmFreeBytes mmStat16M)) := by
  obtain ⟨s, hreach, -⟩ := kmemLastFree
  exact ⟨s, hreach, kmem_release_agrees_iff kmemBackground hreach mmStat16M⟩

/-- With sixteen megabytes free, the break stays where it was. -/
theorem kmem_release_refused : ¬ ∀ s, (kmemSystem kmemBackground KernelSbrk).Reachable KmemOk s →
    ∀ st, ReleaseAgrees kmemBackground (kernelSbrkAllows st) s.heap := by
  intro hall
  obtain ⟨s, hreach, hfree, hsize⟩ := kmemLastFree
  obtain ⟨cs, fl, I, -⟩ : KmemRun True s :=
    KmemRun.of_reachable (fun _ hA => hA.bounded) (Or.inl trivial) hreach
  have hok := (I.release_agrees_iff (Or.inl trivial)).mp (hall s hreach mmStat16M) hfree
  rw [hsize] at hok
  have hle := ((kernelSbrk_allows_iff (by decide)).mp hok).1
  exact absurd hle (by decide)

end FlightOs
