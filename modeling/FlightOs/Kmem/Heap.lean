/-
# The kernel heap: `kernel/kmem.c`

A malloc-like allocator on top of the system break.  Every chunk of the heap starts with a header
of 32 bytes, `struct kmem`; all chunks are chained by `prev` and `next` in address order, and the
free ones are linked in a list whose head is the node of the first chunk.

* `hdr` holds the headers by their addresses and `links` their nodes, which are known by the
  addresses of their headers.  `bytes` is the rest of the memory, byte by byte.  A store to a
  header clears the bytes it covers, for what its words look like as bytes is not modelled.
* `allow brk n` is the part of `kernel_sbrk(n)` that is not here: whether the break is moved.
* The results of `kmalloc` and `krealloc` are optional: `none` is a loop that does not end, or a
  null pointer that is followed.

The calls run with interrupts off under a lock, and are steps of their own.  The diagnostic
output is left out.
-/
import FlightOs.Mmu.Break

namespace FlightOs

/-! ## 1. The heap -/

/-- `sizeof(struct kmem)` -/
def kmemHeader : Nat := 32

/-- `MAGIC` -/
def kmemMagic : Nat := 0xB19B00B5
/-- `FREE_MAGIC` -/
def kmemFreeMagic : Nat := 0x0DEFACED

/-- `(void *) -1` -/
def sbrkError : Nat := 0xFFFFFFFF

/-- `WORD_ALIGN(x)` -/
def wordAlign (x : Nat) : Nat := walign x 8

/-- The header of a chunk, without its list node. -/
structure Kmem where
  data : Nat
  size : Nat
  free : Nat
  prev : Nat
  next : Nat
  magic : Nat
deriving DecidableEq

structure KmemHeap where
  hdr : Nat → Kmem
  links : Links Nat
  bytes : Nat → Nat
  brk : Nat
  /-- `_kmem_init` -/
  init : Nat
  /-- `_kmem_last` -/
  last : Nat
  availBytes : Nat
  allocFail : Nat

/-- The options of the configuration. -/
structure KmemConfig where
  releaseUnused : Bool
  releaseUnusedLazy : Bool
  releaseBackground : Bool
  pagesReleaseMax : Nat

/-- A store to a field of the header at `k`. -/
def KmemHeap.set (h : KmemHeap) (k : Nat) (v : Kmem) : KmemHeap :=
  { h with
    hdr := Function.update h.hdr k v
    bytes := fun a => if k ≤ a ∧ a < k + kmemHeader then 0 else h.bytes a }

/-- `kernel_sbrk(n)` -/
def KmemHeap.sbrk (h : KmemHeap) (allow : Nat → Nat → Bool) (n : Nat) : KmemHeap × Nat :=
  if n = 0 then (h, h.brk)
  else if allow h.brk n then ({ h with brk := wadd h.brk (walign n 8) }, h.brk)
  else (h, sbrkError)

/-- The initial chunk, or zero. -/
def kmemInit (h : KmemHeap) (allow : Nat → Nat → Bool) : KmemHeap × Nat :=
  if h.init ≠ 0 then (h, h.init)
  else
    match h.sbrk allow (wordAlign kmemHeader) with
    | (h, k) =>
      if k = sbrkError then ({ h with init := k }, 0)
      else
        let h := { h with init := k }
        let h := h.set k ⟨0, 0, 0, 0, 0, kmemMagic⟩
        let h := { h with links := initListHead h.links k }
        ({ h with last := k }, k)

/-! ## 2. Chunks -/

/-- The search of `kmem_find_free_chunk`, from the node `p`: the chunk that is found, or zero. -/
def kmemFindFrom (h : KmemHeap) (size : Nat) : Nat → Option Nat → Option Nat
  | 0, _ => none
  | _ + 1, none => none
  | n + 1, some p =>
    if p = h.init then some 0
    else if (h.hdr p).size < size then kmemFindFrom h size n (h.links p).next
    else some p

/-- More than any list has members: their headers do not overlap. -/
def kmemFuel : Nat := 2 ^ 27

def kmemFindFreeChunk (h : KmemHeap) (size : Nat) : Option (KmemHeap × Nat) :=
  if listEmpty h.links h.init then some (h, 0)
  else
    match kmemFindFrom h size kmemFuel (h.links h.init).next with
    | none => none
    | some 0 => some (h, 0)
    | some k => some ({ h with links := listDelInit h.links k }, k)

/-- The part of `kmem_split` after the size has been checked. -/
def kmemSplitAt (h : KmemHeap) (k split len : Nat) : KmemHeap :=
  let h := h.set split { h.hdr split with
    size := wsub (wsub (h.hdr k).size len) kmemHeader
    free := kmemFreeMagic
    magic := 0
    prev := k
    next := (h.hdr k).next }
  let h := h.set k { h.hdr k with size := wsub split (h.hdr k).data }
  let h :=
    if (h.hdr k).next ≠ 0 then
      h.set (h.hdr k).next { h.hdr (h.hdr k).next with prev := split }
    else h
  let h := h.set k { h.hdr k with next := split }
  let h := if (h.hdr split).next = 0 then { h with last := split } else h
  let h := { h with availBytes := wadd h.availBytes (h.hdr split).size }
  { h with links := listAddTail h.links split h.init }

def kmemSplit (h : KmemHeap) (k size : Nat) : KmemHeap :=
  let split := wordAlign (wadd (h.hdr k).data size)
  let h := h.set split { h.hdr split with data := wadd split kmemHeader }
  let len := wsub split (h.hdr k).data
  if (h.hdr k).size < wadd len kmemHeader then h else kmemSplitAt h k split len

def kmemMerge (h : KmemHeap) (k : Nat) : KmemHeap :=
  let h := h.set k { h.hdr k with
    size := wadd (wadd (h.hdr k).size (h.hdr (h.hdr k).next).size) kmemHeader }
  let h := h.set k { h.hdr k with next := (h.hdr (h.hdr k).next).next }
  if (h.hdr k).next ≠ 0 then
    h.set (h.hdr k).next { h.hdr (h.hdr k).next with prev := k }
  else h

/-! ## 3. Release -/

def kmemLazyRelease (cfg : KmemConfig) (h : KmemHeap) : KmemHeap :=
  let most := wadd kmemHeader (cfg.pagesReleaseMax * 4096)
  if cfg.pagesReleaseMax = 0 then h
  else
    let k := h.last
    if (h.hdr k).size ≤ most then h
    else
      let sz := (h.hdr k).size
      let h := kmemSplit h k (wsub (h.hdr k).size most)
      let h := { h with availBytes := wsub h.availBytes sz }
      let h := { h with availBytes := wadd h.availBytes (h.hdr k).size }
      let h := { h with links := listDelInit h.links k }
      { h with links := listAddTail h.links k h.init }

/-- Take the last chunk out of the heap. -/
def kmemDropLast (h : KmemHeap) : KmemHeap :=
  let k := h.last
  let h := h.set (h.hdr k).prev { h.hdr (h.hdr k).prev with next := 0 }
  let h := { h with last := (h.hdr k).prev }
  let h := { h with availBytes := wsub h.availBytes (h.hdr k).size }
  let h := h.set k { h.hdr k with free := 0, magic := 0 }
  { h with links := listDel h.links k }

def kmemReleaseUnused (cfg : KmemConfig) (h : KmemHeap) (allow : Nat → Nat → Bool) : KmemHeap :=
  if (h.hdr h.last).free ≠ kmemFreeMagic then h
  else
    let h := if cfg.releaseUnusedLazy then kmemLazyRelease cfg h else h
    let k := h.last
    let h := kmemDropLast h
    -- the result of the call is not looked at
    (h.sbrk allow (wsub 0 (wadd (h.hdr k).size kmemHeader))).1

/-! ## 4. Allocation -/

/-- From the label `success` on. -/
def kmallocSuccess (h : KmemHeap) (k : Nat) : KmemHeap × Nat :=
  let h := { h with links := initListHead h.links k }
  let h := h.set k { h.hdr k with free := 0, magic := kmemMagic }
  (h, (h.hdr k).data)

/-- A free chunk is large enough; it is off the list already. -/
def kmallocReuse (h : KmemHeap) (k len : Nat) : KmemHeap × Nat :=
  let h := { h with availBytes := wsub h.availBytes (h.hdr k).size }
  let h := if wadd len kmemHeader < (h.hdr k).size then kmemSplit h k len else h
  kmallocSuccess h k

/-- The last chunk is free but too small. -/
def kmallocExpand (h : KmemHeap) (allow : Nat → Nat → Bool) (len : Nat) : KmemHeap × Nat :=
  let k := h.last
  match h.sbrk allow (wsub len (h.hdr k).size) with
  | (h, r) =>
    if r = sbrkError then ({ h with allocFail := 1 }, 0)
    else
      let h := { h with links := listDelInit h.links k }
      let h := { h with availBytes := wsub h.availBytes (h.hdr k).size }
      let h := h.set k { h.hdr k with size := wsub (wsub h.brk k) kmemHeader }
      kmallocSuccess h k

/-- Link a fresh chunk behind the last one. -/
def kmallocLink (h : KmemHeap) (k : Nat) : KmemHeap :=
  let h := h.set k { h.hdr k with next := 0 }
  let h := h.set k { h.hdr k with prev := h.last }
  let h := h.set (h.hdr k).prev { h.hdr (h.hdr k).prev with next := k }
  let h := h.set k { h.hdr k with size := wsub (wsub h.brk k) kmemHeader }
  let h := h.set k { h.hdr k with data := wadd k kmemHeader }
  { h with last := k }

/-- A fresh chunk. -/
def kmallocFresh (h : KmemHeap) (allow : Nat → Nat → Bool) (len : Nat) : KmemHeap × Nat :=
  match h.sbrk allow len with
  | (h, k) =>
    if k = sbrkError then ({ h with allocFail := 1 }, 0)
    else kmallocSuccess (kmallocLink h k) k

/-- The address of the block, or zero. -/
def kmalloc (h : KmemHeap) (allow : Nat → Nat → Bool) (size : Nat) : Option (KmemHeap × Nat) :=
  if size = 0 then some (h, 0)
  else
    let len := wordAlign (wadd size kmemHeader)
    match kmemFindFreeChunk h len with
    | none => none
    | some (h, k) =>
      if k ≠ 0 then some (kmallocReuse h k len)
      else if (h.hdr h.last).free = kmemFreeMagic then some (kmallocExpand h allow len)
      else some (kmallocFresh h allow len)

/-- The loop of `kcalloc`. -/
def kcallocClear (bytes : Nat → Nat) (dst : Nat) : Nat → Nat → Nat
  | 0 => bytes
  | n + 1 => Function.update (kcallocClear bytes dst n) (dst + n) 0

def kcalloc (h : KmemHeap) (allow : Nat → Nat → Bool) (nmemb size : Nat) :
    Option (KmemHeap × Nat) :=
  let len := nmemb * size % 2 ^ 32
  match kmalloc h allow len with
  | none => none
  | some (h, ptr) =>
    if ptr ≠ 0 then some ({ h with bytes := kcallocClear h.bytes ptr len }, ptr) else some (h, ptr)

def kzalloc (h : KmemHeap) (allow : Nat → Nat → Bool) (size : Nat) : Option (KmemHeap × Nat) :=
  kcalloc h allow size 1

/-! ## 5. Freeing -/

/-- Take in the chunk behind `k`, if it is free. -/
def kfreeNext (h : KmemHeap) (k : Nat) : KmemHeap :=
  if (h.hdr k).next ≠ 0 ∧ (h.hdr (h.hdr k).next).free ≠ 0 then
    let h := { h with links := listDel h.links (h.hdr k).next }
    let h := { h with availBytes := wsub h.availBytes (h.hdr (h.hdr k).next).size }
    let h := kmemMerge h k
    { h with links := initListHead h.links k }
  else h

/-- Go into the chunk before `k`, if it is free: the chunk that is left. -/
def kfreePrev (h : KmemHeap) (k : Nat) : KmemHeap × Nat :=
  if (h.hdr (h.hdr k).prev).free ≠ 0 then
    let h := { h with links := listDel h.links (h.hdr k).prev }
    let h := h.set k { h.hdr k with free := 0 }
    let h := { h with availBytes := wsub h.availBytes (h.hdr (h.hdr k).prev).size }
    let k := (h.hdr k).prev
    let h := kmemMerge h k
    ({ h with links := initListHead h.links k }, k)
  else (h, k)

/-- Put a chunk on the free list. -/
def kfreeList (h : KmemHeap) (k : Nat) : KmemHeap :=
  let h := { h with availBytes := wadd h.availBytes (h.hdr k).size }
  let h := if (h.hdr k).next = 0 then { h with last := k } else h
  { h with links := listAddTail h.links k h.init }

/-- The part of `kfree` after all checks. -/
def kfreeChunk (cfg : KmemConfig) (h : KmemHeap) (allow : Nat → Nat → Bool) (k : Nat) : KmemHeap :=
  let h := h.set k { h.hdr k with free := kmemFreeMagic, magic := 0 }
  let h := kfreeNext h k
  let (h, k) := kfreePrev h k
  let h := kfreeList h k
  if cfg.releaseUnused ∧ ¬ cfg.releaseBackground then kmemReleaseUnused cfg h allow else h

/-- Physical memory, from `HIGHMEM_START` on, is another allocator's. -/
def kfree (cfg : KmemConfig) (h : KmemHeap) (allow : Nat → Nat → Bool) (ptr : Nat) : KmemHeap :=
  if ptr = 0 then h
  else if highmemStart ≤ ptr then h
  else if ptr < h.init then h
  else if h.brk < ptr then h
  else
    let k := wsub ptr kmemHeader
    if (h.hdr k).data ≠ ptr then h
    else if (h.hdr k).magic ≠ kmemMagic then h
    else if (h.hdr k).next ≠ 0 ∧ (h.hdr (h.hdr k).next).free ≠ 0 ∧
        (h.hdr (h.hdr k).next).free ≠ kmemFreeMagic then h
    else kfreeChunk cfg h allow k

/-- The loop of `krealloc`. -/
def kreallocCopy (bytes : Nat → Nat) (dst src : Nat) : Nat → Nat → Nat
  | 0 => bytes
  | n + 1 => Function.update (kreallocCopy bytes dst src n) (dst + n)
      (kreallocCopy bytes dst src n (src + n))

def krealloc (cfg : KmemConfig) (h : KmemHeap) (allow : Nat → Nat → Bool) (ptr size : Nat) :
    Option (KmemHeap × Nat) :=
  if ptr = 0 then kmalloc h allow size
  else if ptr < h.init then some (h, 0)
  else if h.brk < ptr then some (h, 0)
  else
    let k := wsub ptr kmemHeader
    if (h.hdr k).data ≠ ptr then some (h, 0)
    else
      match kmalloc h allow size with
      | none => none
      | some (h, new) =>
        if new = 0 then some (h, 0)
        else
          let len := if size < (h.hdr k).size then size else (h.hdr k).size
          let h := { h with bytes := kreallocCopy h.bytes new ptr len }
          some (kfree cfg h allow ptr, new)

end FlightOs
