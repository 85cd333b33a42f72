/-
# Runs of the heap

A run starts behind `kmem_init` and is made of calls of the allocator and of what the owners of
the blocks write to them, in any order.  `kernel_sbrk` may answer each call in its own way, as
far as the condition `A` of the system lets it.

`KmemRun` is what holds all along: the heap is in order (`HeapInv`), and its live chunks are the
blocks that the callers hold.  The condition on the calls is `KmemFits`: where the size that is
asked for is so large that the length of its chunk wraps, or that the increment comes out negative,
`kmalloc` does not notice.
-/
import FlightOs.Kmem.Realloc
import FlightOs.Lib.Blocks
import FlightOs.Lib.System

namespace FlightOs

/-! ## 1. The system -/

/-- The heap and the blocks that callers hold: their addresses and the sizes asked for. -/
structure KmemState where
  heap : KmemHeap
  live : List (Nat × Nat)

inductive KmemOp
  | kmalloc (size : Nat)
  | kzalloc (size : Nat)
  | krealloc (ptr size : Nat)
  | kfree (ptr : Nat)
  /-- the task that releases unused memory in the background -/
  | release
  /-- what the memory is after the owners of the blocks have written to them -/
  | write (heap : KmemHeap)

/-- The state after a call that returns. -/
def kmemCall (cfg : KmemConfig) (allow : Nat → Nat → Bool) (s : KmemState) :
    KmemOp → Option KmemState
  | .kmalloc size =>
    (kmalloc s.heap allow size).map (fun r => ⟨r.1, addBlock s.live r.2 size⟩)
  | .kzalloc size =>
    (kzalloc s.heap allow size).map (fun r => ⟨r.1, addBlock s.live r.2 size⟩)
  | .krealloc ptr size =>
    (krealloc cfg s.heap allow ptr size).map (fun r =>
      ⟨r.1, if r.2 = 0 then s.live else addBlock (dropBlock s.live ptr) r.2 size⟩)
  | .kfree ptr => some ⟨kfree cfg s.heap allow ptr, dropBlock s.live ptr⟩
  | .release => some ⟨kmemReleaseUnused cfg s.heap allow, s.live⟩
  | .write heap => some ⟨heap, s.live⟩

/-- The storage before `kmem_init`. -/
structure KmemBlank (h : KmemHeap) : Prop where
  init : h.init = 0
  avail : h.availBytes = 0
  brk : 8 ∣ h.brk ∧ vmallocStart ≤ h.brk ∧ h.brk ≤ vmallocEnd

/-- The heap under a `kernel_sbrk` whose answers all meet `A`. -/
def kmemSystem (cfg : KmemConfig) (A : (Nat → Nat → Bool) → Prop) : System KmemState KmemOp where
  init s := s.live = [] ∧
    ∃ h allow k, KmemBlank h ∧ A allow ∧ k ≠ 0 ∧ kmemInit h allow = (s.heap, k)
  step s o s' := ∃ allow, A allow ∧ kmemCall cfg allow s o = some s'

namespace KmemState

def IsLive (s : KmemState) (ptr : Nat) : Prop := ∃ e ∈ s.live, e.1 = ptr

/-- The byte at `x` is in somebody's block. -/
def LiveAt (s : KmemState) (x : Nat) : Prop := ∃ e ∈ s.live, e.1 ≤ x ∧ x < e.1 + e.2

/-- The memory of `h` is that of the state but for the blocks. -/
structure Writes (s : KmemState) (h : KmemHeap) : Prop where
  bytes : ∀ x, ¬ s.LiveAt x → h.bytes x = s.heap.bytes x
  headers : ∀ k, (∀ x, k ≤ x → x < k + kmemHeader → ¬ s.LiveAt x) →
    h.hdr k = s.heap.hdr k ∧ h.links k = s.heap.links k
  rest : h = { s.heap with hdr := h.hdr, links := h.links, bytes := h.bytes }

end KmemState

/-- Calls on valid pointers, and owners that keep to their blocks. -/
def KmemValid (s : KmemState) : KmemOp → Prop
  | .kmalloc _ | .kzalloc _ | .release => True
  | .krealloc ptr _ | .kfree ptr => ptr = 0 ∨ s.IsLive ptr
  | .write h => s.Writes h

/-- The sizes that are asked for fit. -/
def KmemFits (s : KmemState) : KmemOp → Prop
  | .kmalloc size | .kzalloc size | .krealloc _ size => SizeFits s.heap size
  | .kfree _ | .release | .write _ => True

def KmemOk (s : KmemState) (o : KmemOp) : Prop := KmemValid s o ∧ KmemFits s o

/-! ## 2. Blocks and live chunks -/

/-- The blocks are those of the live chunks, which are large enough for them. -/
def KmemOwned (live : List (Nat × Nat)) (cs : List Chunk) : Prop :=
  ∃ m : List (Chunk × Nat), (m.map Prod.fst).Perm cs ∧
    live = m.map (fun p => (p.1.addr + 32, p.2)) ∧ ∀ p ∈ m, p.2 ≤ p.1.size

section KmemOwned

variable {live : List (Nat × Nat)} {cs cs' : List Chunk} {c : Chunk} {size : Nat}

theorem KmemOwned.perm (h : KmemOwned live cs) (hp : cs.Perm cs') : KmemOwned live cs' := by
  obtain ⟨m, h1, h2⟩ := h
  exact ⟨m, h1.trans hp, h2⟩

theorem KmemOwned.add (h : KmemOwned live cs) (hle : size ≤ c.size) :
    KmemOwned (addBlock live (c.addr + 32) size) (c :: cs) := by
  obtain ⟨m, h1, h2, h3⟩ := h
  refine ⟨(c, size) :: m, h1.cons c, ?_, fun p hp => ?_⟩
  · rw [h2]
    rfl
  · rcases List.mem_cons.mp hp with rfl | hp
    · exact hle
    · exact h3 p hp

theorem KmemOwned.drop (h : KmemOwned live (c :: cs)) (hne : ∀ d ∈ cs, d.addr ≠ c.addr) :
    KmemOwned (dropBlock live (c.addr + 32)) cs := by
  obtain ⟨m, h1, h2, h3⟩ := h
  have hkeep : (c :: cs).filter (fun d => d.addr + 32 ≠ c.addr + 32) = cs := by
    rw [List.filter_cons_of_neg (by simp)]
    exact List.filter_eq_self.mpr (fun d hd => by simpa using hne d hd)
  refine ⟨m.filter (fun p => p.1.addr + 32 ≠ c.addr + 32), ?_, ?_, fun p hp => ?_⟩
  · have hf := h1.filter (fun d => d.addr + 32 ≠ c.addr + 32)
    rw [hkeep, List.filter_map] at hf
    exact hf
  · rw [h2, dropBlock, List.filter_map]
    rfl
  · exact h3 p (List.mem_of_mem_filter hp)

/-- The chunk of a block. -/
theorem KmemOwned.chunk (h : KmemOwned live cs) {e : Nat × Nat} (he : e ∈ live) :
    ∃ c ∈ cs, e.1 = c.addr + 32 ∧ e.2 ≤ c.size := by
  obtain ⟨m, h1, rfl, h3⟩ := h
  obtain ⟨p, hp, rfl⟩ := List.mem_map.mp he
  exact ⟨p.1, h1.mem_iff.mp (List.mem_map_of_mem hp), rfl, h3 p hp⟩

/-- No block lies at address zero. -/
theorem KmemOwned.drop_zero (h : KmemOwned live cs) : dropBlock live 0 = live := by
  refine dropBlock_of_forall (fun e he => ?_)
  obtain ⟨c, -, hc, -⟩ := h.chunk he
  omega

/-- The block of a chunk. -/
theorem KmemOwned.block (h : KmemOwned live cs) (hc : c ∈ cs) : ∃ e ∈ live, e.1 = c.addr + 32 := by
  obtain ⟨m, h1, rfl, -⟩ := h
  obtain ⟨p, hp, rfl⟩ := List.mem_map.mp (h1.mem_iff.mpr hc)
  exact ⟨_, List.mem_map_of_mem hp, rfl⟩

end KmemOwned

/-! ## 3. What holds all along -/

def KmemRun (gap : Prop) (s : KmemState) : Prop :=
  ∃ cs fl, HeapInv gap s.heap cs fl ∧ KmemOwned s.live (liveOf cs)

section Run

variable {gap : Prop} {s s' : KmemState} {cs cs' : List Chunk} {fl : List Nat} {c : Chunk}
  {size a t ptr : Nat} {allow : Nat → Nat → Bool} {cfg : KmemConfig}

/-- `kmem_init` leaves the initial chunk, and nothing else. -/
theorem HeapInv.init {h h' : KmemHeap} {k : Nat} (hb : KmemBlank h) (hallow : Bounded allow)
    (hk : k ≠ 0) (heq : kmemInit h allow = (h', k)) :
    HeapInv gap h' [⟨h.brk, 0, .root⟩] [] := by
  obtain ⟨h8, hlo, hhi⟩ := hb.brk
  have hend := hhi
  unfold vmallocStart at hlo
  unfold vmallocEnd at hend
  have h32 : wordAlign kmemHeader = 32 := by decide
  rw [kmemInit, if_neg (fun e => e hb.init), h32] at heq
  cases hok : allow h.brk 32 with
  | false =>
    rw [sbrk_refused (by decide) (by simp [hok])] at heq
    simp only [if_true] at heq
    exact absurd (Prod.mk.inj heq).2.symm hk
  | true =>
    have halign : walign 32 8 = 32 := by decide
    have hle := hallow _ _ hhi (by omega) hok
    rw [halign] at hle
    have hle' := hle
    unfold vmallocEnd at hle'
    have hsbrk : h.sbrk allow 32 = ({ h with brk := h.brk + 32 }, h.brk) := by
      rw [KmemHeap.sbrk, if_neg (by decide), if_pos hok, halign, wadd_of_lt (by omega)]
    rw [hsbrk] at heq
    simp only [if_neg (show h.brk ≠ sbrkError by unfold sbrkError; omega)] at heq
    obtain ⟨rfl, -⟩ := Prod.mk.inj heq
    refine ⟨⟨⟨?_, trivial⟩, ⟨Meets.refl, Chunk.addr_le_stop _, Meets.refl⟩, ?_, ⟨?_, hle⟩, hlo,
      ⟨[], rfl, by simp⟩, initListHead_ring _ _, by simp⟩, rfl, ?_, by simp, List.isChain_singleton _⟩
    · exact Function.update_self ..
    · simpa using h8
    · show 8 ∣ h.brk + 32
      omega
    · refine hb.avail.trans ?_
      simp [Chunk.freeSize]

theorem KmemRun.init {A : (Nat → Nat → Bool) → Prop} (hA : ∀ allow, A allow → Bounded allow)
    (h : (kmemSystem cfg A).init s) : KmemRun gap s := by
  obtain ⟨hlive, h₀, allow, k, hb, hallow, hk, heq⟩ := h
  refine ⟨_, _, HeapInv.init hb (hA _ hallow) hk heq, [], List.Perm.nil, hlive, by simp⟩

/-- A valid pointer is that of a live chunk. -/
theorem KmemOwned.of_isLive (hown : KmemOwned s.live (liveOf cs)) (hptr : s.IsLive ptr) :
    ∃ a t, ptr = a + 32 ∧ ⟨a, t, .live⟩ ∈ liveOf cs := by
  obtain ⟨e, he, rfl⟩ := hptr
  obtain ⟨⟨a, t, u⟩, hc, hec, -⟩ := hown.chunk he
  obtain rfl : u = .live := (mem_liveOf.mp hc).2
  exact ⟨a, t, hec, hc⟩

/-- A live chunk, and the others. -/
theorem HeapInv.others (I : HeapInv gap s.heap cs fl) (hc : ⟨a, t, .live⟩ ∈ liveOf cs) :
    ∃ rest, (liveOf cs).Perm (⟨a, t, .live⟩ :: rest) ∧ ∀ d ∈ rest, d.addr ≠ a := by
  have hp := List.perm_cons_erase hc
  refine ⟨_, hp, fun d hd he => ?_⟩
  have hmem : d ∈ liveOf cs := hp.mem_iff.mpr (List.mem_cons_of_mem _ hd)
  obtain rfl := I.eq_of_addr (mem_liveOf.mp hmem).1 (mem_liveOf.mp hc).1 he
  exact (List.nodup_cons.mp (hp.nodup_iff.mp I.liveOf_nodup)).1 hd

theorem kmalloc_zero {h : KmemHeap} : kmalloc h allow 0 = some (h, 0) := if_pos rfl

/-- A failed call leaves everything as it is. -/
theorem HeapInv.failed (I : HeapInv gap s.heap cs fl) :
    HeapInv gap { s.heap with allocFail := 1 } cs fl :=
  ⟨I.toLayout.congr rfl rfl (fun _ _ => rfl) rfl, I.last, I.avail, I.settled, I.coalesced⟩

/-- A new block. -/
theorem KmemRun.allocates {h' : KmemHeap} {k n : Nat} (hown : KmemOwned s.live (liveOf cs))
    (hal : Allocates gap s.heap h' cs k n) (hn : size ≤ n) :
    KmemRun gap ⟨h', addBlock s.live (k + 32) size⟩ := by
  obtain ⟨cs', fl', t, I', hperm, hle, -⟩ := hal
  refine ⟨cs', fl', I', (hown.add (c := ⟨k, t, .live⟩) (hn.trans hle)).perm hperm.symm⟩

theorem KmemRun.kmalloc (h : KmemRun gap s) (hb : Bounded allow) (hfits : SizeFits s.heap size) :
    ∃ r, FlightOs.kmalloc s.heap allow size = some r ∧
      KmemRun gap ⟨r.1, addBlock s.live r.2 size⟩ := by
  obtain ⟨cs, fl, I, hown⟩ := h
  rcases Nat.eq_zero_or_pos size with rfl | hpos
  · exact ⟨_, kmalloc_zero, cs, fl, I, hown⟩
  · rcases I.kmalloc hb hpos hfits with hfail | ⟨h', k, hk, hal⟩
    · exact ⟨_, hfail, cs, fl, I.failed, hown⟩
    · exact ⟨_, hk, KmemRun.allocates hown hal le_rfl⟩

theorem KmemRun.kzalloc (h : KmemRun gap s) (hb : Bounded allow) (hfits : SizeFits s.heap size) :
    ∃ r, FlightOs.kzalloc s.heap allow size = some r ∧
      KmemRun gap ⟨r.1, addBlock s.live r.2 size⟩ := by
  obtain ⟨cs, fl, I, hown⟩ := h
  have hsize := hfits.1
  have hlen : size * 1 % 2 ^ 32 = size := by omega
  rcases Nat.eq_zero_or_pos size with rfl | hpos
  · refine ⟨(s.heap, 0), ?_, cs, fl, I, hown⟩
    simp [FlightOs.kzalloc, FlightOs.kcalloc, kmalloc_zero]
  · rcases I.kcalloc hb hlen hpos hfits with hfail | ⟨h', k, hk, hal, -⟩
    · exact ⟨_, hfail, cs, fl, I.failed, hown⟩
    · exact ⟨_, hk, KmemRun.allocates hown hal le_rfl⟩

variable (cfg) in
theorem KmemRun.kfree (h : KmemRun gap s) (hallow : gap ∨ Grants allow)
    (hptr : ptr = 0 ∨ s.IsLive ptr) :
    KmemRun gap ⟨FlightOs.kfree cfg s.heap allow ptr, dropBlock s.live ptr⟩ := by
  obtain ⟨cs, fl, I, hown⟩ := h
  rcases hptr with rfl | hptr
  · rw [hown.drop_zero]
    exact ⟨cs, fl, I, hown⟩
  · obtain ⟨a, t, rfl, hc⟩ := hown.of_isLive hptr
    obtain ⟨rest, hperm, hne⟩ := I.others hc
    obtain ⟨pre, post, rfl⟩ := split_live hc
    rw [I.kfree_eq]
    obtain ⟨cs', fl', I', hlive, -⟩ := I.kfreeChunk cfg hallow
    refine ⟨cs', fl', I', ((hown.perm hperm).drop hne).perm ?_⟩
    rw [hlive]
    refine (List.Perm.cons_inv (a := ⟨a, t, .live⟩) (hperm.symm.trans ?_))
    rw [liveOf_append, liveOf_append, liveOf_cons_live rfl]
    exact List.perm_middle

variable (cfg) in
theorem KmemRun.krealloc (h : KmemRun gap s) (hb : Bounded allow) (hallow : gap ∨ Grants allow)
    (hptr : ptr = 0 ∨ s.IsLive ptr) (hfits : SizeFits s.heap size) :
    ∃ r, FlightOs.krealloc cfg s.heap allow ptr size = some r ∧
      KmemRun gap ⟨r.1, if r.2 = 0 then s.live else addBlock (dropBlock s.live ptr) r.2 size⟩ := by
  rcases hptr with rfl | hptr
  · obtain ⟨r, hr, hrun⟩ := h.kmalloc hb hfits
    have hsame : (if r.2 = 0 then s.live else addBlock (dropBlock s.live 0) r.2 size) =
        addBlock s.live r.2 size := by
      obtain ⟨cs, fl, I, hown⟩ := h
      rw [hown.drop_zero, addBlock]
      split <;> rfl
    exact ⟨r, hr, hsame ▸ hrun⟩
  · obtain ⟨cs, fl, I, hown⟩ := h
    obtain ⟨a, t, rfl, hc⟩ := hown.of_isLive hptr
    rcases Nat.eq_zero_or_pos size with rfl | hpos
    · refine ⟨(s.heap, 0), ?_, cs, fl, I, hown⟩
      rw [I.krealloc_eq hc, kmalloc_zero]
      rfl
    · rcases I.krealloc cfg hb hallow hpos hfits hc with
        hfail | ⟨h', k, n, cs', fl', hk, I', hperm, hle, -⟩
      · exact ⟨_, hfail, cs, fl, I.failed, hown⟩
      · obtain ⟨rest, hold, hne⟩ := I.others hc
        have hnew : (liveOf cs').Perm (⟨k, n, .live⟩ :: rest) := by
          refine List.Perm.cons_inv (a := ⟨a, t, .live⟩) (hperm.trans ?_)
          exact (hold.cons _).trans (List.Perm.swap ..)
        have hown' := ((hown.perm hold).drop hne).add (c := ⟨k, n, .live⟩) hle
        exact ⟨_, hk, cs', fl', I', hown'.perm hnew.symm⟩

/-- The owners of the blocks cannot reach the headers. -/
theorem KmemRun.write {h' : KmemHeap} (h : KmemRun gap s) (hw : s.Writes h') :
    KmemRun gap ⟨h', s.live⟩ := by
  obtain ⟨cs, fl, I, hown⟩ := h
  have hout : ∀ d ∈ cs, h'.hdr d.addr = s.heap.hdr d.addr ∧ h'.links d.addr = s.heap.links d.addr := by
    refine fun d hd => hw.headers _ (fun x h1 h2 => ?_)
    rintro ⟨e, he, h3, h4⟩
    obtain ⟨c, hc, hec, hle⟩ := hown.chunk he
    refine I.live_outside (liveByte_iff.mpr ⟨c, hc, by omega, ?_⟩) hd ⟨h1, h2⟩
    unfold Chunk.stop
    omega
  have hlinks : Ring h'.links s.heap.init fl := by
    refine I.ring.congr (fun x hx => ?_)
    rcases List.mem_cons.mp hx with rfl | hx
    · exact (hout _ I.init_mem).2
    · obtain ⟨d, hd, rfl, -⟩ := (I.listed x).mp hx
      exact (hout d hd).2
  have hinit : h'.init = s.heap.init := by rw [hw.rest]
  have hbrk : h'.brk = s.heap.brk := by rw [hw.rest]
  refine ⟨cs, fl, ⟨⟨I.chain.congr (fun d hd => (hout d hd).1), ?_, I.aligned, ?_, ?_, ?_, ?_,
    I.listed⟩, ?_, ?_, I.settled, I.coalesced⟩, hown⟩
  · rw [hinit, hbrk]
    exact I.tiled
  · rw [hbrk]
    exact I.brk
  · rw [hinit]
    exact I.low
  · rw [hinit]
    exact I.root
  · rw [hinit]
    exact hlinks
  · rw [hw.rest]
    exact I.last
  · rw [hw.rest]
    exact I.avail

variable (cfg) in
/-- **The step.**  A call in order returns, and leaves the heap in order. -/
theorem KmemRun.call (h : KmemRun gap s) (hb : Bounded allow) (hallow : gap ∨ Grants allow)
    {o : KmemOp} (ho : KmemOk s o) : ∃ s', kmemCall cfg allow s o = some s' ∧ KmemRun gap s' := by
  cases o with
  | kmalloc size =>
    obtain ⟨r, hr, hrun⟩ := h.kmalloc hb ho.2
    exact ⟨_, by rw [kmemCall, hr]; rfl, hrun⟩
  | kzalloc size =>
    obtain ⟨r, hr, hrun⟩ := h.kzalloc hb ho.2
    exact ⟨_, by rw [kmemCall, hr]; rfl, hrun⟩
  | krealloc ptr size =>
    obtain ⟨r, hr, hrun⟩ := h.krealloc cfg hb hallow ho.1 ho.2
    exact ⟨_, by rw [kmemCall, hr]; rfl, hrun⟩
  | kfree ptr => exact ⟨_, rfl, h.kfree cfg hallow ho.1⟩
  | release =>
    obtain ⟨cs, fl, I, hown⟩ := h
    obtain ⟨cs', fl', I', hlive, -⟩ := I.releaseUnused cfg hallow
    exact ⟨_, rfl, cs', fl', I', hlive.symm ▸ hown⟩
  | write h' => exact ⟨_, rfl, h.write ho.1⟩

/-- **The run.** -/
theorem KmemRun.of_reachable {A : (Nat → Nat → Bool) → Prop}
    (hb : ∀ allow, A allow → Bounded allow) (hg : gap ∨ ∀ allow, A allow → Grants allow)
    (h : (kmemSystem cfg A).Reachable KmemOk s) : KmemRun gap s := by
  refine h.invariant (fun s hs => KmemRun.init hb hs) (fun s o s' hs ho hstep => ?_)
  obtain ⟨allow, hallow, heq⟩ := hstep
  obtain ⟨s'', heq', hrun⟩ :=
    hs.call cfg (hb _ hallow) (hg.imp_right (fun hh => hh _ hallow)) ho
  rw [heq] at heq'
  exact (Option.some.inj heq').symm ▸ hrun

end Run

/-! ## 4. Lists of calls -/

def kmemCalls (cfg : KmemConfig) (allow : Nat → Nat → Bool) : KmemState → List KmemOp →
    Option KmemState
  | s, [] => some s
  | s, o :: os => (kmemCall cfg allow s o).bind (fun s' => kmemCalls cfg allow s' os)

/-- Every call of a list meets the condition when it is made. -/
def AlongCalls (cfg : KmemConfig) (allow : Nat → Nat → Bool) (ok : KmemState → KmemOp → Prop) :
    KmemState → List KmemOp → Prop
  | _, [] => True
  | s, o :: os => ok s o ∧ ∀ s', kmemCall cfg allow s o = some s' → AlongCalls cfg allow ok s' os

theorem kmemCalls_reachable {cfg : KmemConfig} {A : (Nat → Nat → Bool) → Prop}
    {allow : Nat → Nat → Bool} {ok : KmemState → KmemOp → Prop} (hA : A allow) :
    ∀ (os : List KmemOp) {s s' : KmemState}, (kmemSystem cfg A).Reachable ok s →
      AlongCalls cfg allow ok s os → kmemCalls cfg allow s os = some s' →
      (kmemSystem cfg A).Reachable ok s'
  | [], _, _, h, _, heq => Option.some.inj heq ▸ h
  | o :: os, s, s', h, hok, heq => by
    obtain ⟨s₁, h1, h2⟩ := Option.bind_eq_some_iff.mp heq
    exact kmemCalls_reachable hA os (h.step hok.1 ⟨allow, hA, h1⟩) (hok.2 s₁ h1) h2

theorem sizeFits_of_le {h : KmemHeap} {size : Nat} (hle : size ≤ 2 ^ 31 - 40) : SizeFits h size := by
  have hlen : wordAlign (wadd size kmemHeader) < 2 ^ 31 := by
    have hadd : wadd size kmemHeader = size + 32 := by
      unfold kmemHeader
      exact wadd_of_lt (by omega)
    have hspec := walign_spec (x := size + 32) (a := 8) (by omega) (by omega)
    rw [hadd, wordAlign]
    omega
  refine ⟨by omega, lt_of_le_of_lt ?_ hlen⟩
  unfold kmallocLack
  split
  · exact Nat.sub_le _ _
  · exact le_rfl

/-- The break may be lowered, and raised up to its bound. -/
def sbrkWithin (brk n : Nat) : Bool := decide (2 ^ 31 ≤ n ∨ brk + walign n 8 ≤ vmallocEnd)

theorem sbrkWithin_bounded : Bounded sbrkWithin := by
  intro brk n _ hn hok
  exact (of_decide_eq_true hok).resolve_left (by omega)

theorem sbrkWithin_grants : Grants sbrkWithin := fun _ _ hn => decide_eq_true (Or.inl hn)

def kmemBlank : KmemHeap where
  hdr _ := ⟨0, 0, 0, 0, 0, 0⟩
  links _ := ⟨none, none⟩
  bytes _ := 0
  brk := vmallocStart
  init := 0
  last := 0
  availBytes := 0
  allocFail := 0

/-- The heap behind `kmem_init`. -/
def kmemStart (allow : Nat → Nat → Bool) : KmemState := ⟨(kmemInit kmemBlank allow).1, []⟩

theorem kmemStart_reachable {cfg : KmemConfig} {A : (Nat → Nat → Bool) → Prop}
    {ok : KmemState → KmemOp → Prop} {allow : Nat → Nat → Bool} (hA : A allow)
    (hk : (kmemInit kmemBlank allow).2 = vmallocStart) :
    (kmemSystem cfg A).Reachable ok (kmemStart allow) :=
  .init ⟨rfl, kmemBlank, allow, vmallocStart, ⟨rfl, rfl, by decide⟩, hA, by decide,
    Prod.ext rfl hk⟩

/-- Unused memory is released with the call of `kfree`, in whole. -/
def kmemReleasing : KmemConfig := ⟨true, false, false, 0⟩

/-- Nothing is ever released. -/
def kmemKeeping : KmemConfig := ⟨false, false, false, 0⟩

end FlightOs
