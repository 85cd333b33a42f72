/-
# The buddy-system memory manager: `lib/mm.c`

The functions of `mm.c` as they stand in the source, over a pool whose three stores are kept
as functions: the allocated order of each minimum block (`alloc_order`), the free bit of each
minimum block (`blk_free`), and the memory of `struct list_head`s (`links`).  A list head is
either one of the pool's anchors `block_order[i]` or the link at the start of a block, so the
nodes are these two and nothing else.

Addresses, orders and counters are 32-bit words.  The messages a function prints are left out;
nothing reads them.
-/
import FlightOs.Errno
import FlightOs.ListHead
import FlightOs.Log2

namespace FlightOs

/-! ## 1. The pool -/

/-- Where a `struct list_head` of the pool lies. -/
inductive MmNode
  | blockOrder (i : Nat)
  | blk (addr : Nat)
deriving DecidableEq

/-- The buddy memory pool, `struct mm_pool`. -/
structure MmPool where
  base : Nat
  maxOrder : Nat
  minOrder : Nat
  nBlks : Nat
  allocBlks : Nat
  allocOrder : Nat → Nat
  blkFree : Nat → Bool
  links : Links MmNode

/-- The counters over all pools, `__mm_stat`. -/
structure MmStat where
  totalBlocks : Nat
  usedBlocks : Nat
  allocFail : Nat

/-- What the functions of `mm.c` read and write: a pool and the counters. -/
structure Mm where
  pool : MmPool
  stat : MmStat

/-- `sizeof(struct mm_blk_lnk)` -/
def sizeofMmBlkLnk : Nat := 8

def mmNumBlocksTrackable (orderMax orderMin : Nat) : Nat := wshl 1 orderMax / wshl 1 orderMin

/-! ## 2. Blocks -/

def mmBlkAddrValid (mp : MmPool) (blk : Nat) : Bool :=
  decide (mp.base ≤ blk) && decide (blk < wadd mp.base (wshl 1 mp.maxOrder))

def mmBlkIdx (mp : MmPool) (blk : Nat) : Nat := wsub blk mp.base / 2 ^ mp.minOrder

def mmMarkFree (mp : MmPool) (blk : Nat) : MmPool :=
  { mp with blkFree := Function.update mp.blkFree (mmBlkIdx mp blk) true }

def mmMarkAlloc (mp : MmPool) (blk : Nat) : MmPool :=
  { mp with blkFree := Function.update mp.blkFree (mmBlkIdx mp blk) false }

def mmBlkFree (mp : MmPool) (blk : Nat) : Bool := mp.blkFree (mmBlkIdx mp blk)

def mmBlkGetAllocOrder (mp : MmPool) (blk : Nat) : Nat := mp.allocOrder (mmBlkIdx mp blk)

/-- The order is cut to the `unsigned char` it is stored in. -/
def mmBlkSetAllocOrder (mp : MmPool) (blk order : Nat) : MmPool :=
  { mp with allocOrder := Function.update mp.allocOrder (mmBlkIdx mp blk) (order % 256) }

/-- Make the upper half of a block of order `order + 1` a free block. -/
def mmSplitBlk (mp : MmPool) (blk order : Nat) : MmPool :=
  let blk := wadd blk (wshl 1 order)
  let mp := mmBlkSetAllocOrder mp blk order
  let mp := mmMarkFree mp blk
  { mp with links := listAdd mp.links (.blk blk) (.blockOrder order) }

def mmFindNeighbour (mp : MmPool) (blk order : Nat) : Nat :=
  wadd (wsub blk mp.base ^^^ wshl 1 order) mp.base

/-- Merge a block with its neighbour, if that is a free block of the same order.  The second
component is the address of the merged block, or `none` for `NULL`. -/
def mmMergeBlk (mp : MmPool) (blk order : Nat) : MmPool × Option Nat :=
  let mp := { mp with links := initListHead mp.links (.blk blk) }
  let n := mmFindNeighbour mp blk order
  if !mmBlkFree mp n then (mp, none)
  else if mmBlkGetAllocOrder mp n ≠ order then (mp, none)
  else if (mp.links (.blk n)).prev = none ∨ (mp.links (.blk n)).next = none then (mp, none)
  else
    let mp := { mp with links := listDel mp.links (.blk n) }
    -- the lower address becomes the merged block; after `blk = n; n = blk` the two are one
    let lo := if n < blk then n else blk
    let n := if n < blk then lo else n
    let mp := mmBlkSetAllocOrder mp n 0
    let mp := mmBlkSetAllocOrder mp lo (wadd order 1)
    let mp := mmMarkAlloc mp n
    let mp := mmMarkAlloc mp lo
    (mp, some lo)

/-- The loop of `mm_upmerge_blks`, with the number of orders left below the maximum. -/
def mmUpmergeLoop : Nat → MmPool → Nat → Nat → MmPool × Nat × Nat
  | 0, mp, blk, order => (mp, blk, order)
  | n + 1, mp, blk, order =>
    match mmMergeBlk mp blk order with
    | (mp, some tmp) => mmUpmergeLoop n mp tmp (order + 1)
    | (mp, none) => (mp, blk, order)

/-- Mark a block free and put it on the list of its order; never link the initial block. -/
def mmLinkFree (mp : MmPool) (blk order : Nat) : MmPool :=
  let mp := mmMarkFree mp blk
  let mp := mmBlkSetAllocOrder mp blk order
  if blk ≠ mp.base then
    { mp with links := listAdd mp.links (.blk blk) (.blockOrder order) }
  else mp

def mmUpmergeBlks (mp : MmPool) (blk : Nat) : MmPool :=
  let order := mmBlkGetAllocOrder mp blk
  let r := mmUpmergeLoop (mp.maxOrder - order) mp blk order
  mmLinkFree r.1 r.2.1 r.2.2

/-- The order, raised to the minimum, or a negated error number. -/
def mmFixupValidate (mp : MmPool) (addr order : Nat) : Nat :=
  if mp.maxOrder < order then wsub 0 EINVAL
  else if addr ≠ 0 ∧ addr < mp.base then wsub 0 EINVAL
  else if addr ≠ 0 ∧ wshl 1 mp.maxOrder < wsub addr mp.base then wsub 0 EINVAL
  else if order < mp.minOrder then mp.minOrder
  else order

/-! A store to a link changes nothing that the other functions read. -/

section Links

variable (mp : MmPool) (l : Links MmNode) (a order : Nat)

@[simp] theorem mmBlkIdx_links : mmBlkIdx { mp with links := l } a = mmBlkIdx mp a := rfl

@[simp] theorem mmBlkFree_links : mmBlkFree { mp with links := l } a = mmBlkFree mp a := rfl

@[simp] theorem mmBlkGetAllocOrder_links :
    mmBlkGetAllocOrder { mp with links := l } a = mmBlkGetAllocOrder mp a := rfl

@[simp] theorem mmFindNeighbour_links :
    mmFindNeighbour { mp with links := l } a order = mmFindNeighbour mp a order := rfl

end Links

/-! ## 3. Allocation -/

/-- The search loop of `mm_alloc`: the first of the `n` orders from `i` on whose list has an
entry. -/
def mmFindOrder (mp : MmPool) : Nat → Nat → Option Nat
  | 0, _ => none
  | n + 1, i => if listEmpty mp.links (.blockOrder i) then mmFindOrder mp n (i + 1) else some i

/-- `list_entry(list->next, struct mm_blk_lnk, link)`; a list with an entry has a block first. -/
def mmListEntry : Option MmNode → Nat
  | some (.blk addr) => addr
  | _ => 0

/-- The loop `while (order < i--)`, from `i = order + n`. -/
def mmSplitLoop (blk order : Nat) : Nat → MmPool → MmPool
  | 0, mp => mp
  | n + 1, mp => mmSplitLoop blk order n (mmSplitBlk mp blk (order + n))

/-- The end of `mm_alloc`: cut a block of order `i` down to `order` and account for it. -/
def mmTake (mm : Mm) (blk i order : Nat) : Mm :=
  let mp := mmMarkAlloc mm.pool blk
  let mp := mmBlkSetAllocOrder mp blk order
  let mp := mmSplitLoop blk order (i - order) mp
  let n := wshl 1 (order - mp.minOrder)
  { pool := { mp with allocBlks := wadd mp.allocBlks n }
    stat := { mm.stat with usedBlocks := wadd mm.stat.usedBlocks n } }

/-- The rest of `mm_alloc`, once the order is validated. -/
def mmAllocOrder (mm : Mm) (order : Nat) : Mm × Option Nat :=
  if isErrValue order then (mm, none)
  else if mm.pool.allocBlks ≠ 0 then
    match mmFindOrder mm.pool (mm.pool.maxOrder + 1 - order) order with
    | none => ({ mm with stat := { mm.stat with allocFail := 1 } }, none)
    | some i =>
      let blk := mmListEntry (mm.pool.links (.blockOrder i)).next
      let mp := { mm.pool with links := listDel mm.pool.links (.blk blk) }
      (mmTake { mm with pool := mp } blk i order, some blk)
  else (mmTake mm mm.pool.base mm.pool.maxOrder order, some mm.pool.base)

/-- The address of a new block, or `none` for `NULL`. -/
def mmAlloc (mm : Mm) (size : Nat) : Mm × Option Nat :=
  if size = 0 then (mm, none)
  else mmAllocOrder mm (mmFixupValidate mm.pool 0 (ilog2 (roundupPowOfTwo size)))

/-! ## 4. Release -/

def mmFree (mm : Mm) (addr : Nat) : Mm :=
  if addr = 0 then mm
  else if !mmBlkAddrValid mm.pool addr then mm
  else if mmBlkFree mm.pool addr then mm
  else
    let order := mmBlkGetAllocOrder mm.pool addr
    if order = 0 then mm
    else
      let order := mmFixupValidate mm.pool addr order
      if isErrValue order then mm
      else
        let mp := mmUpmergeBlks mm.pool addr
        let n := wshl 1 (order - mp.minOrder)
        { pool := { mp with allocBlks := wsub mp.allocBlks n }
          stat := { mm.stat with usedBlocks := wsub mm.stat.usedBlocks n } }

/-! ## 5. Initialisation -/

/-- The loop `for (i = 0; i <= max_order; i++) INIT_LIST_HEAD(..)` -/
def mmInitLists (links : Links MmNode) : Nat → Links MmNode
  | 0 => initListHead links (.blockOrder 0)
  | n + 1 => initListHead (mmInitLists links n) (.blockOrder (n + 1))

/-- The pool that `mm_init` hands to `mm_free`: all of it one allocated block. -/
def mmInitPool (mp : MmPool) (base maxOrder minOrder : Nat) : MmPool :=
  let nBlks := mmNumBlocksTrackable maxOrder minOrder
  { base, maxOrder, minOrder, nBlks
    allocBlks := nBlks
    -- `bitmap_zero` clears whole words
    blkFree := fun i => if i < (nBlks + 31) / 32 * 32 then false else mp.blkFree i
    allocOrder := fun i =>
      if i = 0 then maxOrder % 256 else if i < nBlks then 0 else mp.allocOrder i
    links := mmInitLists mp.links maxOrder }

/-- Zero, or a negated error number. -/
def mmInit (mm : Mm) (base poolSize granularity : Nat) : Mm × Int :=
  let maxOrder := ilog2 (rounddownPowOfTwo poolSize)
  let minOrder := ilog2 (roundupPowOfTwo granularity)
  let minOrder :=
    if wshl 1 minOrder < sizeofMmBlkLnk then ilog2 (roundupPowOfTwo sizeofMmBlkLnk) else minOrder
  if maxOrder < minOrder ∧ wshl 1 (wsub maxOrder 1) < sizeofMmBlkLnk then
    ({ mm with pool := { mm.pool with base, maxOrder, minOrder := wsub maxOrder 1 } },
      -(ENOMEM : Int))
  else
    let minOrder := if maxOrder < minOrder then wsub maxOrder 1 else minOrder
    let pool := mmInitPool mm.pool base maxOrder minOrder
    let stat := { mm.stat with
      totalBlocks := wadd mm.stat.totalBlocks pool.nBlks
      usedBlocks := wadd mm.stat.usedBlocks pool.allocBlks }
    (mmFree { pool, stat } base, 0)

/-! ## 6. What a pool is asked -/

/-- The free minimum blocks. -/
def mmUnallocatedBlocks (mp : MmPool) : Nat := wsub mp.nBlks mp.allocBlks

def mmAddrInPool (mp : MmPool) (addr : Nat) : Bool :=
  if mp.nBlks < mmBlkIdx mp addr then false
  else if !mmBlkAddrValid mp addr then false
  else mmBlkGetAllocOrder mp addr != 0

def mmBlockSize (mp : MmPool) (addr : Nat) : Nat :=
  if mmAddrInPool mp addr then wshl 1 (mmBlkGetAllocOrder mp addr) else 0

end FlightOs
