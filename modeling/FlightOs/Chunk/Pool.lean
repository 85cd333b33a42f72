/-
# The chunk allocator: `lib/chunk.c`

A pool takes regions from a higher tier and cuts buffers off them.  Every chunk starts with a
header, `struct chunk`; a region is a chunk without a parent, and a buffer is cut off the free end
of a chunk, whose child it becomes.  The chunks that may have room are on the list `full`, the
others on `empty`.

* `hdr` holds the headers by their addresses, and `links` their nodes and the two anchors.
* The higher tier is not here.  `region` is what `pool->alloc` answers, zero for none, and `real`
  what `pool->real_alloc_size` says about it; `tier` records the calls, the last one first.
* The results of `chunk_alloc` and `chunk_free` are optional: `none` is a `BUG_ON` that stops the
  machine, a null pointer that is followed, or a loop that does not end.

`chunk_free` hands a region back before it unlinks its node, so the higher tier must leave the
node alone until the next call.  The diagnostic output is left out.
-/
import FlightOs.ListPair
import FlightOs.Lib.Word
import Mathlib.Logic.Function.Basic

namespace FlightOs

/-! ## 1. The pool -/

/-- `sizeof(struct chunk)` -/
def chunkHeader : Nat := 36

/-- `struct chunk`, without its list node. -/
structure ChunkHdr where
  mem : Nat
  size : Nat
  free : Nat
  refcnt : Nat
  parent : Nat
  child : Nat
  sibling : Nat
deriving DecidableEq

inductive ChunkNode
  | full
  | empty
  | chunk (c : Nat)
deriving DecidableEq

/-- A call of the higher tier. -/
inductive TierCall
  /-- what was asked for, the answer and its size -/
  | alloc (want region size : Nat)
  | free (addr : Nat)
deriving DecidableEq

structure ChunkPool where
  hdr : Nat → ChunkHdr
  links : Links ChunkNode
  align : Nat
  /-- `alloc` is set -/
  hasAlloc : Bool
  /-- `real_alloc_size` is set -/
  hasRealSize : Bool
  tier : List TierCall

/-- A store to a field of the header at `c`. -/
def ChunkPool.set (s : ChunkPool) (c : Nat) (v : ChunkHdr) : ChunkPool :=
  { s with hdr := Function.update s.hdr c v }

def chunkAlign (s : ChunkPool) (p : Nat) : Nat := walign p s.align

def chunkClassify (s : ChunkPool) (c : Nat) : ChunkPool :=
  if (s.hdr c).free ≤ wadd chunkHeader s.align then
    { s with links := listMoveTail s.links (.chunk c) .empty }
  else { s with links := listMoveTail s.links (.chunk c) .full }

def chunkSetup (s : ChunkPool) (c : Nat) : ChunkPool :=
  let s := s.set c { s.hdr c with mem := chunkAlign s (wadd c chunkHeader) }
  s.set c { s.hdr c with free := wsub (wadd c (s.hdr c).size) (s.hdr c).mem }

/-! ## 2. Allocation -/

/-- The size of a region: what the higher tier says, if it can be asked. -/
def ChunkPool.regionSize (s : ChunkPool) (size real : Nat) : Nat :=
  if s.hasRealSize then real else size

/-- A new chunk, or zero. -/
def chunkGrabNew (s : ChunkPool) (size region real : Nat) : ChunkPool × Nat :=
  let s := { s with tier := .alloc size region (s.regionSize size real) :: s.tier }
  if region = 0 then (s, 0)
  else
    let c := region
    let s := s.set c { s.hdr c with size := s.regionSize size real }
    if s.hasRealSize = true ∧ (s.hdr c).size < size then
      ({ s with tier := .free c :: s.tier }, 0)
    else
      let s := s.set c { s.hdr c with parent := 0, child := 0, sibling := 0 }
      let s := s.set c { s.hdr c with refcnt := 0 }
      let s := chunkSetup s c
      ({ s with links := listAddTail s.links (.chunk c) .full }, c)

/-- The new child, or zero. -/
def chunkSplit (s : ChunkPool) (c allocSz : Nat) : ChunkPool × Nat :=
  if (s.hdr c).free < allocSz then (s, 0)
  else
    let new := (s.hdr c).mem
    let s := s.set new { s.hdr new with
      parent := c, child := 0, sibling := (s.hdr c).child, refcnt := 1, size := allocSz }
    let s := chunkSetup s new
    let s := s.set new { s.hdr new with free := 0 }
    let s := { s with links := listAddTail s.links (.chunk new) .empty }
    let s := s.set c { s.hdr c with child := new, refcnt := wadd (s.hdr c).refcnt 1 }
    let s := s.set c { s.hdr c with mem := chunkAlign s (wadd (s.hdr c).mem allocSz) }
    let s := s.set c { s.hdr c with free := wsub (wadd c (s.hdr c).size) (s.hdr c).mem }
    (chunkClassify s c, new)

/-- `alloc_sz` of `chunk_alloc` -/
def chunkAllocSz (s : ChunkPool) (size : Nat) : Nat :=
  chunkAlign s (wadd (wadd size s.align) chunkHeader)

/-- The search of `chunk_alloc` from a node on: the first chunk with room, or zero. -/
def chunkFindFrom (s : ChunkPool) (allocSz : Nat) : Nat → Option ChunkNode → Option Nat
  | _ + 1, some .full => some 0
  | n + 1, some (.chunk p) =>
    if allocSz ≤ (s.hdr p).free then some p
    else chunkFindFrom s allocSz n (s.links (.chunk p)).next
  | _, _ => none

/-- More than any list has members: they have different addresses. -/
def chunkFuel : Nat := 2 ^ 32

/-- `chunk_alloc` once a chunk has been found or obtained. -/
def chunkAllocFrom (s : ChunkPool) (c allocSz : Nat) : Option (ChunkPool × Nat) :=
  match chunkSplit s c allocSz with
  | (s, new) => if new = 0 then none else some (s, (s.hdr new).mem)

/-- The buffer, or zero. -/
def chunkAlloc (s : ChunkPool) (size region real : Nat) : Option (ChunkPool × Nat) :=
  if s.hasAlloc = false then some (s, 0)
  else if size = 0 then some (s, 0)
  else
    let allocSz := chunkAllocSz s size
    match chunkFindFrom s allocSz chunkFuel (s.links .full).next with
    | none => none
    | some 0 =>
      match chunkGrabNew s allocSz region real with
      | (s, c) => if c = 0 then some (s, 0) else chunkAllocFrom s c allocSz
    | some c => chunkAllocFrom s c allocSz

/-! ## 3. Release -/

/-- `chunk_free` of the youngest child `c` of `p`, up to the call for the parent. -/
def chunkUpmerge (s : ChunkPool) (p c : Nat) : ChunkPool :=
  let s := s.set p { s.hdr p with child := (s.hdr c).sibling }
  let s := s.set p { s.hdr p with refcnt := wsub (s.hdr p).refcnt 1 }
  let s := s.set p { s.hdr p with mem := chunkAlign s c }
  let s := s.set p { s.hdr p with free := wsub (wadd p (s.hdr p).size) c }
  let s := s.set c { s.hdr c with size := wadd (wsub (s.hdr p).size (s.hdr c).size) 1 }
  { s with links := listDel s.links (.chunk c) }

/-- The header of the buffer at `addr`. -/
def chunkOfAddr (s : ChunkPool) (addr : Nat) : Nat :=
  chunkAlign s (wsub (wsub addr chunkHeader) s.align)

/-- `chunk_free`, with at most `n` calls of itself. -/
def chunkFreeFrom : Nat → ChunkPool → Nat → Option ChunkPool
  | 0, _, _ => none
  | n + 1, s, addr =>
    if addr = 0 then some s
    else if s.hasAlloc = false then some s
    else
      let c := chunkOfAddr s addr
      if addr ≠ chunkAlign s (wadd c chunkHeader) then none
      else if (s.hdr c).parent = 0 then
        if (s.hdr c).refcnt ≠ 0 then none
        else some { s with tier := .free c :: s.tier, links := listDel s.links (.chunk c) }
      else
        let p := (s.hdr c).parent
        -- a chunk that reaches beyond its parent is reported and freed all the same
        if addr < p then some s
        else if (s.hdr p).child = c then
          let s := chunkUpmerge s p c
          if (s.hdr p).refcnt = 0 then chunkFreeFrom n s (s.hdr p).mem else some s
        else
          let s := chunkSetup s c
          some { s with links := listMoveTail s.links (.chunk c) .full }

def chunkFree (s : ChunkPool) (addr : Nat) : Option ChunkPool := chunkFreeFrom chunkFuel s addr

/-- The pool in storage that holds anything, and the list anchors in `links`. -/
def chunkPoolInit (hdr : Nat → ChunkHdr) (links : Links ChunkNode) (align : Nat)
    (hasAlloc hasRealSize : Bool) : ChunkPool :=
  let links := initListHead links .full
  let links := initListHead links .empty
  { hdr, links, align, hasAlloc, hasRealSize, tier := [] }

end FlightOs
