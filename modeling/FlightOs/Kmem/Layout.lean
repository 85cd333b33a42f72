/-
# The heap as a list of chunks

What the headers of a heap stand for: a list of chunks in address order, from the initial chunk
up to the break.  `Layout gap h cs fl` says that the headers of `h` hold the chunks `cs` and that
the free list has the members `fl`; with `gap`, memory between chunks may have been lost.

A call of the allocator passes through states in which a chunk is free by its header but on no
list (`taken`), or is about to disappear in its neighbour (`dead`).  There is one lemma for each
of the changes that the calls are made of; which of them a call makes is looked at in the modules
that follow.
-/
import FlightOs.Kmem.Heap
import FlightOs.Lib.Chain
import FlightOs.Lib.Tiling

namespace FlightOs

/-! ## 1. Chunks -/

inductive ChunkUse
  | root
  | live
  | free
  | taken
  | dead
deriving DecidableEq

structure Chunk where
  addr : Nat
  size : Nat
  use : ChunkUse
deriving DecidableEq

namespace Chunk

/-- The address behind a chunk. -/
def stop (c : Chunk) : Nat := c.addr + 32 + c.size

/-- The header of a chunk between `p` and `n`. -/
def header (c : Chunk) (p n : Nat) : Kmem where
  data := if c.use = .root then 0 else c.addr + 32
  size := c.size
  free := if c.use = .free ∨ c.use = .taken then kmemFreeMagic else 0
  prev := p
  next := n
  magic := if c.use = .root ∨ c.use = .live then kmemMagic else 0

/-- The bytes on the free list. -/
def freeSize (c : Chunk) : Nat := if c.use = .free then c.size else 0

theorem addr_le_stop (c : Chunk) : c.addr ≤ c.stop := by
  unfold stop
  omega

end Chunk

/-- The bytes of all chunks on the free list. -/
def freeBytes (cs : List Chunk) : Nat := (cs.map Chunk.freeSize).sum

@[simp] theorem freeBytes_nil : freeBytes [] = 0 := rfl

@[simp] theorem freeBytes_cons {c : Chunk} {cs : List Chunk} :
    freeBytes (c :: cs) = c.freeSize + freeBytes cs := List.sum_cons

@[simp] theorem freeBytes_append {xs ys : List Chunk} :
    freeBytes (xs ++ ys) = freeBytes xs + freeBytes ys := by
  simp [freeBytes]

/-- The initial chunk comes first, and is the only one of its kind. -/
def Rooted (init : Nat) (cs : List Chunk) : Prop :=
  ∃ rest, cs = ⟨init, 0, .root⟩ :: rest ∧ ∀ c ∈ rest, c.use ≠ .root

/-- Chunks other than the initial one may be exchanged. -/
theorem Rooted.replace {init : Nat} {pre xs post : List Chunk}
    (h : Rooted init (pre ++ (xs ++ post))) (ys : List Chunk) (hne : xs ≠ []) (hx : ∀ c ∈ xs, c.use ≠ .root)
    (hy : ∀ c ∈ ys, c.use ≠ .root) : Rooted init (pre ++ (ys ++ post)) := by
  obtain ⟨rest, heq, hrest⟩ := h
  cases pre with
  | nil =>
    cases xs with
    | nil => exact absurd rfl hne
    | cons c xs =>
      obtain ⟨rfl, -⟩ := List.cons.inj heq
      exact absurd rfl (hx _ List.mem_cons_self)
  | cons d pre =>
    obtain ⟨rfl, rfl⟩ := List.cons.inj heq
    refine ⟨pre ++ (ys ++ post), rfl, fun c hc => ?_⟩
    have hold : ∀ c ∈ pre ++ (xs ++ post), c.use ≠ .root := hrest
    rcases List.mem_append.mp hc with hc | hc
    · exact hold c (List.mem_append_left _ hc)
    · rcases List.mem_append.mp hc with hc | hc
      · exact hy c hc
      · exact hold c (List.mem_append_right _ (List.mem_append_right _ hc))

/-- There is always a chunk before one that is not the initial one. -/
theorem Rooted.before {init : Nat} {pre post : List Chunk} {c : Chunk}
    (h : Rooted init (pre ++ c :: post)) (hc : c.use ≠ .root) : ∃ pre' d, pre = pre' ++ [d] := by
  obtain ⟨rest, heq, -⟩ := h
  rcases List.eq_nil_or_concat pre with rfl | ⟨pre', d, rfl⟩
  · obtain ⟨rfl, -⟩ := List.cons.inj heq
    exact absurd rfl hc
  · exact ⟨pre', d, List.concat_eq_append⟩

/-! ## 2. The layout of a heap -/

structure Layout (gap : Prop) (h : KmemHeap) (cs : List Chunk) (fl : List Nat) : Prop where
  chain : Chained Chunk.addr Chunk.header h.hdr 0 cs 0
  tiled : Tiled gap Chunk.addr Chunk.stop h.init cs h.brk
  aligned : ∀ c ∈ cs, 8 ∣ c.addr ∧ 8 ∣ c.size
  brk : 8 ∣ h.brk ∧ h.brk ≤ vmallocEnd
  low : vmallocStart ≤ h.init
  root : Rooted h.init cs
  ring : Ring h.links h.init fl
  listed : ∀ a, a ∈ fl ↔ ∃ c ∈ cs, c.addr = a ∧ c.use = .free

/-- A byte of a live block. -/
def LiveByte (cs : List Chunk) (x : Nat) : Prop :=
  ∃ c ∈ cs, c.use = .live ∧ c.addr + 32 ≤ x ∧ x < c.stop

namespace Layout

variable {gap : Prop} {h h' : KmemHeap} {cs pre post : List Chunk} {fl : List Nat} {c d : Chunk}
  {a b s t n x : Nat} {u v : ChunkUse}

theorem bounds (L : Layout gap h cs fl) (hc : c ∈ cs) :
    h.init ≤ c.addr ∧ c.addr + 32 + c.size ≤ h.brk := by
  have := L.tiled.bounds hc
  exact ⟨this.1, this.2.2⟩

/-- Addresses are neither null nor near the end of the address space. -/
theorem range (L : Layout gap h cs fl) (hc : c ∈ cs) :
    0 < c.addr ∧ c.addr + 32 + c.size < 2 ^ 29 := by
  have h1 := L.bounds hc
  have h2 := L.low
  have h3 := L.brk.2
  unfold vmallocStart at h2
  unfold vmallocEnd at h3
  omega

theorem sorted (L : Layout gap h (pre ++ c :: post) fl) :
    (∀ d ∈ pre, d.addr + 32 + d.size ≤ c.addr) ∧ ∀ d ∈ post, c.addr + 32 + c.size ≤ d.addr :=
  L.tiled.around

theorem header_eq (L : Layout gap h (pre ++ c :: post) fl) :
    h.hdr c.addr = c.header (lastAddr Chunk.addr 0 pre) (firstAddr Chunk.addr post 0) :=
  (chained_mid.mp L.chain).2.1

theorem apart (L : Layout gap h cs fl) (hc : c ∈ cs) (hd : d ∈ cs) (hne : c ≠ d) :
    c.addr + 32 + c.size ≤ d.addr ∨ d.addr + 32 + d.size ≤ c.addr := L.tiled.apart hc hd hne

/-- A chunk is known by its address. -/
theorem eq_of_addr (L : Layout gap h cs fl) (hc : c ∈ cs) (hd : d ∈ cs) (he : c.addr = d.addr) :
    c = d := by
  by_contra hne
  have := L.apart hc hd hne
  omega

theorem init_mem (L : Layout gap h cs fl) : ⟨h.init, 0, .root⟩ ∈ cs := by
  obtain ⟨rest, rfl, -⟩ := L.root
  exact List.mem_cons_self

/-- The bytes of a live block are in no header. -/
theorem live_outside (L : Layout gap h cs fl) (hx : LiveByte cs x) (hd : d ∈ cs) :
    ¬ (d.addr ≤ x ∧ x < d.addr + kmemHeader) := by
  obtain ⟨c, hc, -, h1, h2⟩ := hx
  unfold Chunk.stop at h2
  unfold kmemHeader
  by_cases he : c = d
  · subst he
    omega
  · have := L.apart hc hd he
    omega

/-- Nor in another chunk. -/
theorem live_outside_free (L : Layout gap h cs fl) (hx : LiveByte cs x) (hd : d ∈ cs)
    (hu : d.use ≠ .live) : ¬ (d.addr ≤ x ∧ x < d.stop) := by
  obtain ⟨c, hc, hl, h1, h2⟩ := hx
  have hne : c ≠ d := by
    rintro rfl
    exact hu hl
  have := L.apart hc hd hne
  unfold Chunk.stop at h2 ⊢
  omega

end Layout

end FlightOs
